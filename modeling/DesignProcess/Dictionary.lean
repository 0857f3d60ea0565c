namespace DesignProcess

structure Dictionary (α : Type) where
  entries : List (String × α)
  increasing : entries.Pairwise fun a b => a.1 < b.1

namespace Dictionary

variable {α : Type}

def empty : Dictionary α := ⟨[], .nil⟩

def place (name : String) (value : α) : List (String × α) → List (String × α)
  | [] => [(name, value)]
  | (k, v) :: rest =>
    if name < k then (name, value) :: (k, v) :: rest
    else if name = k then (name, value) :: rest
    else (k, v) :: place name value rest

theorem mem_place {name : String} {value : α} {l : List (String × α)} {e : String × α}
    (h : e ∈ place name value l) : e = (name, value) ∨ e ∈ l := by
  induction l with
  | nil => simpa [place] using h
  | cons head rest ih =>
    simp only [place] at h
    split at h
    · simpa using h
    · split at h
      · rcases List.mem_cons.mp h with h | h
        · exact .inl h
        · exact .inr (List.mem_cons_of_mem _ h)
      · rcases List.mem_cons.mp h with h | h
        · exact .inr (h ▸ List.mem_cons_self)
        · rcases ih h with h | h
          · exact .inl h
          · exact .inr (List.mem_cons_of_mem _ h)

theorem place_increasing (name : String) (value : α) {l : List (String × α)}
    (h : l.Pairwise fun a b => a.1 < b.1) :
    (place name value l).Pairwise fun a b => a.1 < b.1 := by
  induction l with
  | nil => exact .cons (by simp) .nil
  | cons head rest ih =>
    obtain ⟨hhead, hrest⟩ := List.pairwise_cons.mp h
    simp only [place]
    split
    · rename_i hlt
      refine .cons (fun e he => ?_) h
      rcases List.mem_cons.mp he with rfl | he
      · exact hlt
      · exact String.lt_trans hlt (hhead e he)
    · rename_i hle
      split
      · rename_i heq
        exact .cons (fun e he => heq ▸ hhead e he) hrest
      · rename_i hne
        refine .cons (fun e he => ?_) (ih hrest)
        rcases mem_place he with rfl | he
        · have hge : head.1 ≤ name := String.not_lt.mp hle
          exact String.not_le.mp fun h' => hne (String.le_antisymm h' hge)
        · exact hhead e he

def insert (d : Dictionary α) (name : String) (value : α) : Dictionary α :=
  ⟨place name value d.entries, place_increasing name value d.increasing⟩

def get? (d : Dictionary α) (name : String) : Option α := d.entries.lookup name

def contains (d : Dictionary α) (name : String) : Bool := (d.get? name).isSome

def names (d : Dictionary α) : List String := d.entries.map (·.1)

def size (d : Dictionary α) : Nat := d.entries.length

def extend (d e : Dictionary α) : Dictionary α :=
  e.entries.foldl (fun d (name, value) => d.insert name value) d

theorem lookup_entry (k name : String) (value : α) (l : List (String × α)) :
    ((name, value) :: l).lookup k = if k = name then some value else l.lookup k := by
  rw [List.lookup_cons]
  by_cases h : k = name
  · simp [h]
  · have : (k == name) = false := by simpa using h
    simp [h, this]

theorem lookup_place (name k : String) (value : α) (l : List (String × α)) :
    (place name value l).lookup k = if k = name then some value else l.lookup k := by
  induction l with
  | nil => exact lookup_entry k name value []
  | cons head rest ih =>
    simp only [place]
    split
    · rw [lookup_entry]
    · split
      · rename_i heq
        rw [lookup_entry, lookup_entry, heq]
        split <;> rfl
      · rename_i hne
        rw [lookup_entry, lookup_entry, ih]
        by_cases hk : k = name
        · simp [hk, hne]
        · simp [hk]

theorem get?_insert (d : Dictionary α) (name k : String) (value : α) :
    (d.insert name value).get? k = if k = name then some value else d.get? k :=
  lookup_place name k value d.entries

theorem get?_empty (k : String) : (empty : Dictionary α).get? k = none := rfl

end Dictionary

end DesignProcess
