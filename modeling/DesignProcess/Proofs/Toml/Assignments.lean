import DesignProcess.Proofs.Lookup
import DesignProcess.Proofs.Toml.Numbers

namespace DesignProcess.Toml

open Statement (isBareKeyChar)

structure IsBareKey (k : List Char) : Prop where
  ne_nil : k ≠ []
  chars : ∀ c ∈ k, isBareKeyChar c = true

structure Reads (text : List Char) (v : Value) : Prop where
  read : ∀ fuel r, Value.read (fuel + 1) maxDepth (text ++ '\n' :: r) = some (v, '\n' :: r)
  visible : ∀ c ∈ text.head?, Statement.isSpace c = false
  ne_nil : text ≠ []

theorem Reads.signed (n : ℤ) : Reads (Decimal.signed n) (.integer n) := by
  obtain ⟨c, r, hsigned, hc⟩ := Decimal.signed_cons n
  refine ⟨fun fuel r => Value.read_signed n fuel _ r, ?_, by simp [hsigned]⟩
  have hspace : c ≠ ' ' ∧ c ≠ '\t' := by
    constructor <;> rintro rfl <;> revert hc <;> decide
  rw [hsigned]
  rintro _ ⟨⟩
  simp [Statement.isSpace, hspace]

theorem Reads.quoted {w : List Char} (hne : w ≠ []) (h : ∀ c ∈ w, Value.IsVerbatim c) :
    Reads ('"' :: (w ++ ['"'])) (.string (String.ofList w)) := by
  refine ⟨fun fuel r => ?_, by simp [Statement.isSpace], List.cons_ne_nil _ _⟩
  rw [List.cons_append, List.append_assoc]
  exact Value.read_quoted hne h fuel maxDepth ('\n' :: r)

structure Assignment where
  key : List Char
  text : List Char
  value : Value

structure Assignment.IsSound (a : Assignment) : Prop where
  key : IsBareKey a.key
  reads : Reads a.text a.value

def assignmentLines : List Assignment → List Char
  | [] => []
  | a :: rest => a.key ++ ' ' :: '=' :: ' ' :: (a.text ++ '\n' :: assignmentLines rest)

def tableLines (name : List Char) (entries : List Assignment) : List Char :=
  '[' :: (name ++ ']' :: '\n' :: assignmentLines entries)

namespace Statement

variable {k r : List Char}

theorem isSpace_of_isBareKeyChar {c : Char} (h : isBareKeyChar c = true) : isSpace c = false := by
  simp [isSpace, Text.ne_of_class h (d := ' ') rfl, Text.ne_of_class h (d := '\t') rfl]

theorem gaps_visible {c : Char} (hspace : isSpace c = false) (hline : c ≠ '\n')
    (hreturn : c ≠ '\r') (hcomment : c ≠ '#') : gaps false (c :: r) = some (c :: r) := by
  rw [gaps]
  · simp [hspace, hcomment]
  · exact hline
  · intros
    contradiction

theorem spaces_visible (h : ∀ c ∈ r.head?, isSpace c = false) : spaces r = r := by
  cases r with
  | nil => rfl
  | cons c r => simp [spaces, h c rfl]

theorem simpleKey?_bare (hk : IsBareKey k) (hr : ∀ c ∈ r.head?, isBareKeyChar c = false) :
    simpleKey? (k ++ r) = some (String.ofList k, r) := by
  have htake : (k ++ r).takeWhile isBareKeyChar = k := by
    rw [List.takeWhile_append_of_pos hk.chars]
    cases r with
    | nil => simp
    | cons c r => simp [hr c rfl]
  have hdrop : (k ++ r).dropWhile isBareKeyChar = r := by
    rw [List.dropWhile_append_of_pos hk.chars]
    cases r with
    | nil => rfl
    | cons c r => simp [hr c rfl]
  obtain ⟨c, k, rfl⟩ := List.exists_cons_of_ne_nil hk.ne_nil
  have hc := hk.chars c List.mem_cons_self
  rw [List.cons_append] at htake hdrop ⊢
  rw [simpleKey?, htake, hdrop]
  · rfl
  · intro _ heq
    exact Text.ne_of_class hc (d := '"') rfl (List.cons.inj heq).1
  · intro _ heq
    exact Text.ne_of_class hc (d := '\'') rfl (List.cons.inj heq).1

theorem key?_bare (hk : IsBareKey k) (hr : ∀ c ∈ r.head?, isBareKeyChar c = false)
    (hdot : ∀ r', spaces r ≠ '.' :: r') (fuel : ℕ) :
    key? (fuel + 1) (k ++ r) = some ([String.ofList k], r) := by
  have hkeys : keys? (fuel + 1) (k ++ r) = some ([String.ofList k], r) := by
    rw [keys?, simpleKey?_bare hk hr]
    -- No dot follows, so that the key ends here.
    simp only [Option.bind_eq_bind, Option.bind_some]
  rw [key?, hkeys]
  rfl

theorem read_assign (hk : IsBareKey k) {text : List Char} {v : Value} (hv : Reads text v)
    (fuel : ℕ) :
    read (fuel + 1) (k ++ ' ' :: '=' :: ' ' :: (text ++ '\n' :: r)) =
      some (.assign [String.ofList k] v, r) := by
  have hkey := key?_bare (r := ' ' :: '=' :: ' ' :: (text ++ '\n' :: r)) hk
    (by simp [isBareKeyChar]) (by simp [spaces, isSpace]) fuel
  have hspaces : spaces (' ' :: (text ++ '\n' :: r)) = text ++ '\n' :: r := by
    change spaces (text ++ '\n' :: r) = _
    apply spaces_visible
    rw [List.head?_append_of_ne_nil _ hv.ne_nil]
    exact hv.visible
  obtain ⟨c, k, rfl⟩ := List.exists_cons_of_ne_nil hk.ne_nil
  have hc : c ≠ '[' := Text.ne_of_class (hk.chars c List.mem_cons_self) rfl
  rw [List.cons_append] at hkey ⊢
  rw [read, hkey]
  · change ((Value.read (fuel + 1) maxDepth (spaces (' ' :: (text ++ '\n' :: r)))).bind _) = _
    rw [hspaces, hv.read]
    rfl
  all_goals
    intro _ heq
    exact hc (List.cons.inj heq).1

theorem read_header (hk : IsBareKey k) (fuel : ℕ) :
    read (fuel + 1) ('[' :: (k ++ ']' :: '\n' :: r)) = some (.header [String.ofList k], r) := by
  have hkey := key?_bare (r := ']' :: '\n' :: r) hk (by simp [isBareKeyChar])
    (by simp [spaces, isSpace]) fuel
  have hvisible : spaces (k ++ ']' :: '\n' :: r) = k ++ ']' :: '\n' :: r := by
    apply spaces_visible
    rw [List.head?_append_of_ne_nil _ hk.ne_nil]
    exact fun c hc => isSpace_of_isBareKeyChar (hk.chars c (List.mem_of_mem_head? hc))
  have hbracketed : bracketed (fuel + 1) (k ++ ']' :: '\n' :: r) =
      some ([String.ofList k], '\n' :: r) := by
    rw [bracketed, hvisible, hkey]
    rfl
  obtain ⟨c, k, rfl⟩ := List.exists_cons_of_ne_nil hk.ne_nil
  have hc : c ≠ '[' := Text.ne_of_class (hk.chars c List.mem_cons_self) rfl
  rw [List.cons_append] at hbracketed ⊢
  rw [read, hbracketed]
  · rfl
  · intro _ heq
    exact hc (List.cons.inj heq).1

theorem readAll_visible {c : Char} {cs : List Char} {s : Statement} (hspace : isSpace c = false)
    (hline : c ≠ '\n') (hreturn : c ≠ '\r') (hcomment : c ≠ '#') {fuel : ℕ}
    (hread : read fuel (c :: cs) = some (s, r)) :
    readAll (fuel + 1) (c :: cs) = (readAll fuel r).map (s :: ·) := by
  rw [readAll, gaps_visible hspace hline hreturn hcomment]
  change (read fuel (c :: cs)).bind _ = _
  rw [hread]
  change (readAll fuel r).bind _ = _
  cases readAll fuel r <;> rfl

variable {entries : List Assignment}

def assignments (entries : List Assignment) : List Statement :=
  entries.map fun a => .assign [String.ofList a.key] a.value

theorem readAll_assignmentLines (h : ∀ a ∈ entries, a.IsSound) (fuel : ℕ) :
    readAll (fuel + entries.length + 1) (assignmentLines entries) =
      some (assignments entries) := by
  induction entries with
  | nil => rfl
  | cons a rest ih =>
    obtain ⟨ha, hrest⟩ := List.forall_mem_cons.mp h
    have hread : read (fuel + rest.length + 1) (assignmentLines (a :: rest)) =
      some (.assign [String.ofList a.key] a.value, assignmentLines rest) :=
      read_assign ha.key ha.reads (fuel + rest.length)
    obtain ⟨c, k, hkey⟩ := List.exists_cons_of_ne_nil ha.key.ne_nil
    have hc : isBareKeyChar c = true := ha.key.chars c (by rw [hkey]; exact List.mem_cons_self)
    have hlines : ∃ cs, assignmentLines (a :: rest) = c :: cs := by
      rw [assignmentLines, hkey]
      exact ⟨_, rfl⟩
    obtain ⟨cs, hlines⟩ := hlines
    rw [hlines] at hread ⊢
    have hfuel : fuel + (a :: rest).length + 1 = fuel + rest.length + 1 + 1 := rfl
    rw [hfuel, readAll_visible (isSpace_of_isBareKeyChar hc) (Text.ne_of_class hc rfl)
      (Text.ne_of_class hc rfl) (Text.ne_of_class hc rfl) hread, ih hrest]
    rfl

theorem readAll_tableLines {name : List Char} (hname : IsBareKey name)
    (h : ∀ a ∈ entries, a.IsSound) (fuel : ℕ) :
    readAll (fuel + entries.length + 2) (tableLines name entries) =
      some (.header [String.ofList name] :: assignments entries) := by
  have hread := read_header (r := assignmentLines entries) hname (fuel + entries.length)
  rw [tableLines, readAll_visible (by decide) (by decide) (by decide) (by decide) hread,
    readAll_assignmentLines h]
  rfl

end Statement

variable {entries : List Assignment} {name : List Char}

def slots (entries : List Assignment) : Slots :=
  entries.map fun a => (String.ofList a.key, .value a.value)

theorem extend_assign {current : String} {found : Slots} {k : String} (v : Value)
    (h : found.lookup k = none) :
    Draft.extend ⟨[current], [(current, .table .opened found)]⟩ (.assign [k] v) =
      some ⟨[current], [(current, .table .opened (found ++ [(k, .value v)]))]⟩ := by
  have hassign : Slots.withLast [k] (fun before k =>
      Slots.along true (Slots.assign (!before.isEmpty) k v) before) .opened found =
      some (found ++ [(k, .value v)]) := by
    change Slots.assign false k v .opened found = _
    unfold Slots.assign
    rw [h]
    rfl
  have hbelow : Slots.assignBelow [current] [k] v .opened [(current, .table .opened found)] =
      some [(current, .table .opened (found ++ [(k, .value v)]))] := by
    unfold Slots.assignBelow
    simp [Slots.along, hassign, Slots.replace]
  unfold Draft.extend
  dsimp only
  rw [hbelow]
  rfl

theorem foldlM_assignments {current : String} (found : Slots)
    (hnew : ∀ a ∈ entries, found.lookup (String.ofList a.key) = none)
    (hnodup : (entries.map (·.key)).Nodup) :
    (Statement.assignments entries).foldlM Draft.extend
        ⟨[current], [(current, .table .opened found)]⟩ =
      some ⟨[current], [(current, .table .opened (found ++ slots entries))]⟩ := by
  induction entries generalizing found with
  | nil => simp [Statement.assignments, slots]
  | cons a rest ih =>
    obtain ⟨ha, hrest⟩ := List.forall_mem_cons.mp hnew
    rw [List.map_cons, List.nodup_cons] at hnodup
    have hnext : ∀ b ∈ rest, (found ++ [(String.ofList a.key, Slot.value a.value)]).lookup
        (String.ofList b.key) = none := by
      intro b hb
      have hne : String.ofList b.key ≠ String.ofList a.key := fun heq =>
        hnodup.1 (List.mem_map.mpr ⟨b, hb, String.ofList_inj.mp heq⟩)
      have hold := lookup_eq_none_iff_notMem.mp (hrest b hb)
      rw [lookup_eq_none_iff_notMem, List.map_append, List.mem_append]
      simpa [hne] using hold
    change ((Draft.extend ⟨[current], [(current, .table .opened found)]⟩
      (.assign [String.ofList a.key] a.value)).bind
        fun d => (Statement.assignments rest).foldlM Draft.extend d) = _
    rw [extend_assign a.value ha]
    change (Statement.assignments rest).foldlM Draft.extend _ = _
    rw [ih _ hnext hnodup.2]
    simp [slots]

theorem closeSlots_slots (entries : List Assignment) :
    closeSlots (slots entries) = entries.map fun a => (String.ofList a.key, a.value) := by
  induction entries with
  | nil => rfl
  | cons a rest ih =>
    change (String.ofList a.key, a.value) :: closeSlots (slots rest) = _
    rw [ih]
    rfl

theorem le_length_assignmentLines (entries : List Assignment) :
    entries.length ≤ (assignmentLines entries).length := by
  induction entries with
  | nil => exact Nat.zero_le _
  | cons a rest ih =>
    simp only [assignmentLines, List.length_cons, List.length_append]
    omega

theorem read?_tableLines (hname : IsBareKey name) (h : ∀ a ∈ entries, a.IsSound)
    (hnodup : (entries.map (·.key)).Nodup) :
    read? (String.ofList (tableLines name entries)) =
      some [(String.ofList name,
        .table (entries.map fun a => (String.ofList a.key, a.value)))] := by
  have hlength : entries.length + 2 ≤ (tableLines name entries).length + 2 := by
    have := le_length_assignmentLines entries
    simp only [tableLines, List.length_cons, List.length_append]
    omega
  obtain ⟨fuel, hfuel⟩ := Nat.exists_eq_add_of_le' hlength
  unfold read?
  rw [String.toList_ofList]
  change ((Statement.readAll ((tableLines name entries).length + 2)
    (tableLines name entries)).bind _) = _
  rw [hfuel, ← Nat.add_assoc, Statement.readAll_tableLines hname h]
  change (((Statement.assignments entries).foldlM Draft.extend
    ⟨[String.ofList name], [(String.ofList name, .table .opened [])]⟩).bind _) = _
  rw [foldlM_assignments [] (fun _ _ => rfl) hnodup, List.nil_append]
  change some [(String.ofList name, Value.table (closeSlots (slots entries)))] = _
  rw [closeSlots_slots]

end DesignProcess.Toml
