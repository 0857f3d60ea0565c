namespace DesignProcess.Text

def cutAt? (sep : List Char) : List Char → Option (List Char × List Char)
  | [] => if sep = [] then some ([], []) else none
  | c :: r =>
    if sep.isPrefixOf (c :: r) then some ([], (c :: r).drop sep.length)
    else (cutAt? sep r).map fun (before, after) => (c :: before, after)

def occursIn (part cs : List Char) : Bool := (cutAt? part cs).isSome

theorem eq_of_cutAt {sep cs before after : List Char} (h : cutAt? sep cs = some (before, after)) :
    cs = before ++ sep ++ after := by
  induction cs generalizing before with
  | nil =>
    simp only [cutAt?] at h
    split at h <;> simp_all
  | cons c r ih =>
    simp only [cutAt?] at h
    split at h
    · rename_i hp
      obtain ⟨rest, hrest⟩ := List.isPrefixOf_iff_prefix.mp hp
      simp only [Option.some.injEq, Prod.mk.injEq] at h
      rw [← h.1, ← h.2, ← hrest]
      simp
    · cases hr : cutAt? sep r with
      | none => simp [hr] at h
      | some p =>
        obtain ⟨before', after'⟩ := p
        simp only [hr, Option.map_some, Option.some.injEq, Prod.mk.injEq] at h
        rw [h.2] at hr
        rw [← h.1, ih hr]
        simp

theorem occursIn_of_infix {part cs : List Char} (h : part <:+: cs) : occursIn part cs = true := by
  unfold occursIn
  induction cs with
  | nil =>
    rw [List.infix_nil.mp h]
    rfl
  | cons c r ih =>
    simp only [cutAt?]
    split
    · rfl
    · rename_i hprefix
      rcases List.infix_cons_iff.mp h with hstart | hrest
      · exact absurd (List.isPrefixOf_iff_prefix.mpr hstart) hprefix
      · rw [Option.isSome_map]
        exact ih hrest

theorem occursIn_iff {part cs : List Char} : occursIn part cs = true ↔ part <:+: cs := by
  refine ⟨fun h => ?_, occursIn_of_infix⟩
  obtain ⟨⟨before, after⟩, hcut⟩ := Option.isSome_iff_exists.mp h
  exact ⟨before, after, (eq_of_cutAt hcut).symm⟩

end DesignProcess.Text
