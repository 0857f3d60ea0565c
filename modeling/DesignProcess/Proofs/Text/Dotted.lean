namespace DesignProcess.Text

def IsName (name : String) : Prop := name ≠ "" ∧ '.' ∉ name.toList

def AreNames (names : List String) : Prop := ∀ name ∈ names, IsName name

def joined (names : List String) : String := String.intercalate "." names

def pieces (q : String) : List String :=
  ((q.toList.splitOn '.').filter (· ≠ [])).map String.ofList

variable {names : List String}

theorem joined_cons {name : String} (hne : names ≠ []) :
    joined (name :: names) = name ++ "." ++ joined names :=
  String.intercalate_cons_of_ne_nil hne

theorem joined_ne_empty (h : AreNames names) (hne : names ≠ []) : joined names ≠ "" := by
  cases names with
  | nil => exact absurd rfl hne
  | cons name rest =>
    have hname : name ≠ "" := (h name List.mem_cons_self).1
    intro hempty
    apply hname
    by_cases hrest : rest = []
    · subst hrest
      exact hempty
    · rw [joined_cons hrest] at hempty
      exact (String.append_eq_empty_iff.mp (String.append_eq_empty_iff.mp hempty).1).1

theorem joined_snoc {name : String} (hne : names ≠ []) :
    joined (names ++ [name]) = joined names ++ "." ++ name :=
  String.intercalate_append_of_ne_nil hne (List.cons_ne_nil _ _)

theorem splitOn_joined (h : ∀ name ∈ names, '.' ∉ name.toList) (hne : names ≠ []) :
    (joined names).toList.splitOn '.' = names.map String.toList := by
  have hdot : ".".toList = ['.'] := rfl
  rw [joined, String.toList_intercalate, hdot]
  apply List.splitOn_intercalate
  · intro piece hpiece
    obtain ⟨name, hname, rfl⟩ := List.mem_map.mp hpiece
    exact h name hname
  · simpa using hne

theorem pieces_joined (h : AreNames names) : pieces (joined names) = names := by
  by_cases hne : names = []
  · subst hne
    rfl
  · have hsplit : (joined names).toList.splitOn '.' = names.map String.toList :=
      splitOn_joined (fun name hname => (h name hname).2) hne
    have hkept : (names.map String.toList).filter (· ≠ []) = names.map String.toList := by
      apply List.filter_eq_self.mpr
      intro piece hpiece
      obtain ⟨name, hname, rfl⟩ := List.mem_map.mp hpiece
      simpa using (h name hname).1
    rw [pieces, hsplit, hkept, List.map_map]
    simp [Function.comp_def]

theorem joined_inj_on {others : List String} (h : AreNames names) (h' : AreNames others)
    (heq : joined names = joined others) : names = others := by
  rw [← pieces_joined h, ← pieces_joined h', heq]

theorem notMem_of_mem_splitOn {c : Char} {cs piece : List Char} (h : piece ∈ cs.splitOn c) :
    c ∉ piece := by
  induction cs generalizing piece with
  | nil =>
    rw [List.splitOn_nil, List.mem_singleton] at h
    rw [h]
    exact List.not_mem_nil
  | cons d rest ih =>
    rw [List.splitOn_cons_eq_if_modifyHead] at h
    by_cases hd : (d == c) = true
    · rw [if_pos hd] at h
      rcases List.mem_cons.mp h with rfl | hmem
      · exact List.not_mem_nil
      · exact ih hmem
    · rw [if_neg hd] at h
      cases hsplit : rest.splitOn c with
      | nil => exact absurd hsplit (List.splitOn_ne_nil c rest)
      | cons first others =>
        rw [hsplit] at h
        rcases List.mem_cons.mp h with rfl | hmem
        · have hfirst : c ∉ first := ih (hsplit ▸ List.mem_cons_self)
          have hne : c ≠ d := fun heq => hd (by simp [heq])
          exact List.not_mem_cons_of_ne_of_not_mem hne hfirst
        · exact ih (hsplit ▸ List.mem_cons_of_mem _ hmem)

theorem areNames_pieces (q : String) : AreNames (pieces q) := by
  intro name hname
  obtain ⟨piece, hpiece, rfl⟩ := List.mem_map.mp hname
  obtain ⟨hsplit, hne⟩ := List.mem_filter.mp hpiece
  constructor
  · simpa using hne
  · rw [String.toList_ofList]
    exact notMem_of_mem_splitOn hsplit

end DesignProcess.Text
