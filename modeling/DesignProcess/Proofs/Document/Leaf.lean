import DesignProcess.Proofs.Decimal.Rounding
import DesignProcess.Proofs.Document.Image
import DesignProcess.Proofs.Outcome

namespace DesignProcess.Value

theorem string?_eq_ok_iff {path : KeyPath} {v : Value} {t : Option String} :
    v.string? path = .ok t ↔ IsText v ∧ t = v.text? := by
  unfold string?
  split
  · simp [IsText, text?, eq_comm]
  · simp [IsText, text?, eq_comm]
  · rename_i hnull hstring
    constructor
    · intro h
      cases h
    · rintro ⟨rfl | ⟨s, rfl⟩, -⟩
      · exact absurd rfl hnull
      · exact absurd rfl (hstring s)

theorem finite_eq_ok_iff {path : KeyPath} {x : Float} {y : Option Float} :
    finite path x = .ok y ↔ x.isFinite = true ∧ y = some x := by
  unfold finite
  split
  · rename_i hx
    simp [hx, eq_comm]
  · rename_i hx
    simp [hx]

theorem number?_eq_ok_iff {path : KeyPath} {v : Value} {y : Option Float} :
    v.number? path = .ok y ↔ IsNumber v ∧ y = v.float? := by
  cases v with
  | null =>
    constructor
    · intro h
      exact ⟨.inl rfl, (Except.ok.inj h).symm⟩
    · rintro ⟨-, rfl⟩
      rfl
  | scalar s =>
    cases s with
    | boolean b => simp [number?, Scalar.toFloat?, IsNumber]
    | integer n =>
      have hfinite : (Float.ofInt n.toInt).isFinite = true := (Decimal.isNearest_ofInt64 n).finite
      have hnumber : IsNumber (.scalar (.integer n)) := .inr (.inl ⟨n, rfl⟩)
      change finite path (Float.ofInt n.toInt) = .ok y ↔ _
      rw [finite_eq_ok_iff]
      exact ⟨fun ⟨_, hy⟩ => ⟨hnumber, hy⟩, fun ⟨_, hy⟩ => ⟨hfinite, hy⟩⟩
    | float x =>
      change finite path x = .ok y ↔ _
      rw [finite_eq_ok_iff]
      simp [IsNumber, float?]
    | string s => simp [number?, Scalar.toFloat?, IsNumber]
  | list items => simp [number?, IsNumber]
  | table entries => simp [number?, IsNumber]

theorem paths_eq_ok_iff {path : KeyPath} {i : Nat} {items : List Value} {ps : List Path} :
    paths path i items = .ok ps ↔
      (∀ item ∈ items, ∃ s, item = .scalar (.string s)) ∧
        ps = items.filterMap fun item => item.text?.map Path.mk := by
  induction items generalizing i ps with
  | nil => simp [paths, eq_comm]
  | cons item rest ih =>
    unfold paths
    split
    · rename_i h
      cases h
    · rename_i s rest' h
      obtain ⟨rfl, rfl⟩ := List.cons.inj h
      rw [Except.map_eq_ok_iff]
      constructor
      · rintro ⟨qs, hqs, rfl⟩
        obtain ⟨hrest, rfl⟩ := ih.mp hqs
        refine ⟨?_, by simp [text?]⟩
        intro item hitem
        rcases List.mem_cons.mp hitem with rfl | hitem
        · exact ⟨s, rfl⟩
        · exact hrest item hitem
      · rintro ⟨hall, rfl⟩
        refine ⟨_, ih.mpr ⟨fun item hitem => hall item (List.mem_cons_of_mem _ hitem), rfl⟩, ?_⟩
        simp [text?]
    · rename_i v rest' hno h
      obtain ⟨rfl, rfl⟩ := List.cons.inj h
      constructor
      · intro h
        cases h
      · rintro ⟨hall, -⟩
        obtain ⟨s, rfl⟩ := hall _ List.mem_cons_self
        exact absurd rfl (hno s)

theorem pathList_eq_ok_iff {path : KeyPath} {v : Value} {ps : List Path} :
    v.pathList path = .ok ps ↔ IsTextList v ∧ ps = v.folders := by
  cases v with
  | null => simp [pathList, IsTextList, folders, eq_comm]
  | scalar s => simp [pathList, IsTextList]
  | list items =>
    simp only [pathList, folders]
    rw [paths_eq_ok_iff]
    constructor
    · rintro ⟨hall, rfl⟩
      exact ⟨.inr ⟨items, rfl, hall⟩, rfl⟩
    · rintro ⟨h | ⟨items', h, hall⟩, rfl⟩
      · cases h
      · cases h
        exact ⟨hall, rfl⟩
  | table entries => simp [pathList, IsTextList]

end DesignProcess.Value
