import DesignProcess.Proofs.Document.Conformance

namespace DesignProcess

/-- Where a value stands in a process description. A single variable entry stands where a list of
them may stand. -/
inductive Place
  | root
  | node
  | optimization
  | entry
  | elsewhere
deriving DecidableEq

namespace Place

/-- Whether null under a key says no more than that the key is absent. A table with an identifier is
a component, all of whose other entries are options. -/
def Optional (keys : List String) : Place → String → Prop
  | root, k =>
    k ∈ ["title", "module_folders", "input_file", "output_file", "driver", "optimization"]
  | node, k => "id" ∉ keys ∧ Value.IsSolverKey k
  | optimization, k => ∃ f : OptimizationSpec.Field, k = f.singular ∨ k = f.plural
  | entry, k => k ∈ ["lower", "upper", "scaler", "units"]
  | elsewhere, _ => False

def under : Place → String → Place
  | root, k => if k = "model" then node else if k = "optimization" then optimization else elsewhere
  | node, _ => node
  | optimization, _ => entry
  | entry, _ => elsewhere
  | elsewhere, _ => elsewhere

def item : Place → Place
  | entry => entry
  | _ => elsewhere

end Place

def SingleSpelling (keys : List String) : Prop :=
  ∀ f : OptimizationSpec.Field, ¬(f.singular ∈ keys ∧ f.plural ∈ keys)

namespace Value

mutual

inductive Thins : Place → Value → Value → Prop
  | scalar {p : Place} (s : Scalar) : Thins p (.scalar s) (.scalar s)
  | list {p : Place} {vs ws : List Value} (each : ThinsItems p.item vs ws) :
      Thins p (.list vs) (.list ws)
  | table {p : Place} {es fs : List (String × Value)} (distinct : (es.map (·.1)).Nodup)
      (spelling : p = .optimization → SingleSpelling (es.map (·.1)))
      (each : ThinsEntries p (es.map (·.1)) es fs) : Thins p (.table es) (.table fs)

inductive ThinsItems : Place → List Value → List Value → Prop
  | nil {p : Place} : ThinsItems p [] []
  | cons {p : Place} {v w : Value} {vs ws : List Value} (head : Thins p v w)
      (tail : ThinsItems p vs ws) : ThinsItems p (v :: vs) (w :: ws)

inductive ThinsEntries :
    Place → List String → List (String × Value) → List (String × Value) → Prop
  | nil {p : Place} {keys : List String} : ThinsEntries p keys [] []
  | kept {p : Place} {keys : List String} {k : String} {v w : Value} {es fs : List (String × Value)}
      (head : Thins (p.under k) v w) (tail : ThinsEntries p keys es fs) :
      ThinsEntries p keys ((k, v) :: es) ((k, w) :: fs)
  | omitted {p : Place} {keys : List String} {k : String} {es fs : List (String × Value)}
      (optional : p.Optional keys k) (tail : ThinsEntries p keys es fs) :
      ThinsEntries p keys ((k, .null) :: es) fs

end

variable {p : Place} {v w : Value}

mutual

theorem Thins.eq_of_elsewhere {p : Place} {v w : Value} (h : Thins p v w) (hp : p = .elsewhere) :
    v = w := by
  cases h with
  | scalar s => rfl
  | list each =>
    have hitem : p.item = .elsewhere := by rw [hp]; rfl
    rw [each.eq_of_elsewhere hitem]
  | table distinct spelling each => rw [each.eq_of_elsewhere hp]

theorem ThinsItems.eq_of_elsewhere {p : Place} {vs ws : List Value} (h : ThinsItems p vs ws)
    (hp : p = .elsewhere) : vs = ws := by
  cases h with
  | nil => rfl
  | cons head tail => rw [head.eq_of_elsewhere hp, tail.eq_of_elsewhere hp]

theorem ThinsEntries.eq_of_elsewhere {p : Place} {keys : List String}
    {es fs : List (String × Value)} (h : ThinsEntries p keys es fs) (hp : p = .elsewhere) :
    es = fs := by
  cases h with
  | nil => rfl
  | @kept _ _ k _ _ _ _ head tail =>
    have hunder : p.under k = .elsewhere := by rw [hp]; rfl
    rw [head.eq_of_elsewhere hunder, tail.eq_of_elsewhere hp]
  | omitted optional tail =>
    rw [hp] at optional
    cases optional

end

theorem Thins.isTable_eq (h : Thins p v w) : v.isTable = w.isTable := by
  cases h <;> rfl

theorem Thins.kindName_eq (h : Thins p v w) : v.kindName = w.kindName := by
  cases h <;> rfl

theorem Thins.string?_eq (h : Thins p v w) (path : KeyPath) : v.string? path = w.string? path := by
  cases h <;> rfl

variable {keys : List String} {es fs : List (String × Value)}

/-- Reading the entries one after the other into a state. As long as no entry under a key has been
read the state is as if there were none, and so a null entry does not change it. -/
theorem ThinsEntries.foldlM_eq {σ : Type} {step : σ → String × Value → Except Malformed σ}
    {Unset : σ → String → Prop}
    (hkept : ∀ s k v w, Thins (p.under k) v w → step s (k, v) = step s (k, w))
    (homitted : ∀ s k, p.Optional keys k → Unset s k → step s (k, .null) = .ok s)
    (hunset : ∀ s t k v l, step s (k, v) = .ok t → l ≠ k → Unset s l → Unset t l)
    (h : ThinsEntries p keys es fs) (hdistinct : (es.map (·.1)).Nodup) {s : σ}
    (hs : ∀ k ∈ es.map (·.1), Unset s k) : es.foldlM step s = fs.foldlM step s := by
  induction es generalizing fs s with
  | nil =>
    cases h
    rfl
  | cons e rest ih =>
    obtain ⟨hnew, hrest⟩ := List.nodup_cons.mp hdistinct
    obtain ⟨hhead, htail⟩ := List.forall_mem_cons.mp hs
    cases h with
    | @kept _ _ k v w _ fs head tail =>
      rw [List.foldlM_cons, List.foldlM_cons, hkept s k v w head]
      cases hstep : step s (k, w) with
      | error m => rfl
      | ok t =>
        refine ih tail hrest fun l hl => ?_
        have hne : l ≠ k := fun heq => hnew (heq ▸ hl)
        exact hunset s t k w l hstep hne (htail l hl)
    | omitted optional tail =>
      rw [List.foldlM_cons, homitted s _ optional hhead]
      exact ih tail hrest htail

end Value

end DesignProcess
