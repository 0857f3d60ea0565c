import DesignProcess.Proofs.CallSpec.ArgumentList
import DesignProcess.Proofs.Text.Dotted

namespace DesignProcess.CallSpec

variable {stop : Nat} {ts rest : List Placed} {names : List String}

theorem otherNames_sound (h : otherNames stop ts = .ok (names, rest)) :
    ∃ read, ts = read ++ rest ∧ OtherNames (words read) names := by
  fun_induction otherNames stop ts generalizing names with
  | case1 offset offset' name ts ih =>
    obtain ⟨⟨others, after⟩, hothers, heq⟩ := Except.map_eq_ok_iff.mp h
    cases heq
    obtain ⟨read, rfl, hread⟩ := ih hothers
    exact ⟨⟨offset, .dot⟩ :: ⟨offset', .ident name⟩ :: read, rfl, .dot name hread⟩
  | case2 => cases h
  | case3 =>
    cases h
    exact ⟨[], rfl, .none⟩

theorem otherNames_stop (h : rest.head?.map (·.token) ≠ some .dot) :
    otherNames stop rest = .ok ([], rest) := by
  unfold otherNames
  split
  · exact absurd rfl h
  · exact absurd rfl h
  · rfl

theorem otherNames_complete {read : List Placed} (h : OtherNames (words read) names)
    (hrest : rest.head?.map (·.token) ≠ some .dot) :
    otherNames stop (read ++ rest) = .ok (names, rest) := by
  generalize hw : words read = ws at h
  induction h generalizing read with
  | none =>
    rw [words_eq_nil_iff.mp hw]
    exact otherNames_stop hrest
  | dot name _ ih =>
    obtain ⟨offset, us, rfl, hus⟩ := words_eq_cons_iff.mp hw
    obtain ⟨offset', vs, rfl, hvs⟩ := words_eq_cons_iff.mp hus
    have hothers := ih hvs
    simp only [List.cons_append, otherNames, hothers]
    rfl

theorem path_sound {first : String} {others : List String}
    (h : path stop ts = .ok ((first, others), rest)) :
    ∃ read, ts = read ++ rest ∧ Path (words read) (first :: others) := by
  unfold path at h
  split at h
  · obtain ⟨⟨names, after⟩, hothers, heq⟩ := Except.map_eq_ok_iff.mp h
    cases heq
    obtain ⟨read, rfl, hread⟩ := otherNames_sound hothers
    exact ⟨_ :: read, rfl, .names _ hread⟩
  · cases h

theorem path_complete {read : List Placed} {first : String} {others : List String}
    (h : Path (words read) (first :: others))
    (hrest : rest.head?.map (·.token) ≠ some .dot) :
    path stop (read ++ rest) = .ok ((first, others), rest) := by
  generalize hw : words read = ws at h
  cases h with
  | names _ hothers =>
    obtain ⟨offset, us, rfl, rfl⟩ := words_eq_cons_iff.mp hw
    have hread : otherNames stop (us ++ rest) = .ok (others, rest) :=
      otherNames_complete hothers hrest
    simp only [List.cons_append, path, hread]
    rfl

theorem argumentList_sound {arguments : List (String × Scalar)}
    (h : argumentList stop ts = .ok (arguments, rest)) :
    (rest = ts ∧ arguments = []) ∨
      ∃ offset read, ts = ⟨offset, .lparen⟩ :: (read ++ rest) ∧ Closing (words read) arguments ∧
        (arguments.map (·.1)).Nodup := by
  unfold argumentList at h
  split at h
  · obtain ⟨read, found, rfl, rfl, hclosing, hnodup⟩ := argumentsFrom_sound h List.nodup_nil
    exact .inr ⟨_, read, rfl, hclosing, hnodup⟩
  · cases h
    exact .inl ⟨rfl, rfl⟩

theorem call_iff_closing {ws : List Token} {arguments : List (String × Scalar)} :
    Call ws names arguments ↔
      (Path ws names ∧ arguments = []) ∨
        ∃ vs us, ws = vs ++ .lparen :: us ∧ Path vs names ∧ Closing us arguments ∧
          (arguments.map (·.1)).Nodup := by
  constructor
  · intro h
    cases h with
    | bare hpath => exact .inl ⟨hpath, rfl⟩
    | empty hpath => exact .inr ⟨_, [.rparen], rfl, hpath, .inl ⟨rfl, rfl⟩, List.nodup_nil⟩
    | applied hpath harguments hdistinct =>
      exact .inr ⟨_, _, rfl, hpath, .inr ⟨_, rfl, harguments⟩, hdistinct⟩
  · rintro (⟨hpath, rfl⟩ | ⟨vs, us, rfl, hpath, ⟨rfl, rfl⟩ | ⟨ts, rfl, harguments⟩, hdistinct⟩)
    · exact .bare hpath
    · exact .empty hpath
    · exact .applied hpath harguments hdistinct

theorem call_sound {spec : CallSpec} (h : call stop ts = .ok spec) :
    Call (words ts) spec.names spec.arguments := by
  unfold call at h
  split at h
  · cases h
  · rename_i hpath
    split at h
    · cases h
    · rename_i hlist
      cases h
      obtain ⟨read, rfl, hread⟩ := path_sound hpath
      rw [call_iff_closing]
      rcases argumentList_sound hlist with ⟨rfl, rfl⟩ | ⟨offset, list, rfl, hclosing, hnodup⟩
      · rw [List.append_nil]
        exact .inl ⟨hread, rfl⟩
      · rw [words_append, words_cons, List.append_nil]
        exact .inr ⟨_, _, rfl, hread, hclosing, hnodup⟩
    · cases h

theorem call_complete {spec : CallSpec} (h : Call (words ts) spec.names spec.arguments) :
    call stop ts = .ok spec := by
  obtain ⟨first, others, arguments⟩ := spec
  unfold call
  rcases call_iff_closing.mp h with ⟨hpath, harguments⟩ | ⟨vs, us, hw, hpath, hclosing, hnodup⟩
  · have hread : path stop (ts ++ []) = .ok ((first, others), []) :=
      path_complete hpath (by simp)
    rw [List.append_nil] at hread
    obtain rfl : arguments = [] := harguments
    rw [hread]
    rfl
  · obtain ⟨read, after, rfl, rfl, hafter⟩ := words_eq_append_iff.mp hw
    obtain ⟨offset, list, rfl, rfl⟩ := words_eq_cons_iff.mp hafter
    have hlist : argumentsFrom stop [] (list ++ []) = .ok ([] ++ arguments, []) :=
      argumentsFrom_complete hclosing hnodup
    rw [List.append_nil, List.nil_append] at hlist
    rw [path_complete hpath (by simp)]
    simp only [argumentList, hlist]

theorem ofText_eq_ok_iff (s : String) (spec : CallSpec) :
    ofText s = .ok spec ↔
      ∃ ts, Lexes s.toList ts ∧ Call ts spec.names spec.arguments := by
  unfold ofText
  constructor
  · intro h
    split at h
    · cases h
    · rename_i placed htokens
      exact ⟨words placed, lexes_of_tokens htokens, call_sound h⟩
  · rintro ⟨ts, hlexes, hcall⟩
    obtain ⟨placed, htokens, rfl⟩ := tokens_of_lexes hlexes 0
    rw [htokens]
    exact call_complete hcall

theorem ident_mem_of_otherNames {ws : List Token} (h : OtherNames ws names) {name : String}
    (hname : name ∈ names) : .ident name ∈ ws := by
  induction h with
  | none => cases hname
  | dot other _ ih =>
    rcases List.mem_cons.mp hname with rfl | hmem
    · simp
    · simp [ih hmem]

theorem ident_mem_of_path {ws : List Token} (h : Path ws names) {name : String}
    (hname : name ∈ names) : .ident name ∈ ws := by
  cases h with
  | names first hothers =>
    rcases List.mem_cons.mp hname with rfl | hmem
    · exact List.mem_cons_self
    · exact List.mem_cons_of_mem _ (ident_mem_of_otherNames hothers hmem)

theorem ident_mem_of_call {ws : List Token} {arguments : List (String × Scalar)}
    (h : Call ws names arguments) {name : String} (hname : name ∈ names) : .ident name ∈ ws := by
  cases h with
  | bare hpath => exact ident_mem_of_path hpath hname
  | empty hpath => exact List.mem_append_left _ (ident_mem_of_path hpath hname)
  | applied hpath => exact List.mem_append_left _ (ident_mem_of_path hpath hname)

theorem getLast_names (spec : CallSpec) : spec.names.getLast? = some spec.kind := by
  simp only [names, kind, List.getLast?_cons, List.getLastD_eq_getLast?]

theorem splitOn_target {spec : CallSpec} (h : ∀ name ∈ spec.names, '.' ∉ name.toList) :
    spec.target.toList.splitOn '.' = spec.names.map String.toList :=
  Text.splitOn_joined h (List.cons_ne_nil _ _)

theorem ofText_iff_derivable (s : String) :
    ((∃ spec, ofText s = .ok spec) ↔
      ∃ ts names arguments, Lexes s.toList ts ∧ Call ts names arguments) ∧
    (∀ spec, ofText s = .ok spec ↔
      ∃ ts, Lexes s.toList ts ∧ Call ts spec.names spec.arguments) ∧
    ∀ spec, ofText s = .ok spec →
      spec.target = String.intercalate "." spec.names ∧ spec.names.getLast? = some spec.kind ∧
        (spec.target.toList.splitOn '.').getLast? = some spec.kind.toList := by
  refine ⟨⟨?_, ?_⟩, ofText_eq_ok_iff s, ?_⟩
  · rintro ⟨spec, h⟩
    obtain ⟨ts, hlexes, hcall⟩ := (ofText_eq_ok_iff s spec).mp h
    exact ⟨ts, spec.names, spec.arguments, hlexes, hcall⟩
  · rintro ⟨ts, names, arguments, hlexes, hcall⟩
    cases names with
    | nil => cases hcall with
      | bare hpath | empty hpath | applied hpath => cases hpath
    | cons first others =>
      exact ⟨⟨first, others, arguments⟩, (ofText_eq_ok_iff s _).mpr ⟨ts, hlexes, hcall⟩⟩
  · intro spec h
    obtain ⟨ts, hlexes, hcall⟩ := (ofText_eq_ok_iff s spec).mp h
    have hdotless : ∀ name ∈ spec.names, '.' ∉ name.toList := by
      intro name hname
      obtain ⟨lexeme, hspells⟩ := spells_of_mem hlexes (ident_mem_of_call hcall hname)
      exact dot_notMem_of_ident hspells
    refine ⟨rfl, getLast_names spec, ?_⟩
    rw [splitOn_target hdotless, List.getLast?_map, getLast_names, Option.map_some]

end DesignProcess.CallSpec
