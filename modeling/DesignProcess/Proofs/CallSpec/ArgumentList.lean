import DesignProcess.Proofs.CallSpec.Grammar
import DesignProcess.Proofs.Lookup

namespace DesignProcess.CallSpec

variable {stop : Nat} {found all : List (String × Scalar)} {ts rest : List Placed}

def Closing (ws : List Token) (arguments : List (String × Scalar)) : Prop :=
  (ws = [.rparen] ∧ arguments = []) ∨ ∃ vs, ws = vs ++ [.rparen] ∧ Arguments vs arguments

theorem closing_last {ws : List Token} {a : String × Scalar} (h : Argument ws a) :
    Closing (ws ++ [.rparen]) [a] :=
  .inr ⟨ws, rfl, .last h⟩

theorem closing_more {ws vs : List Token} {a : String × Scalar}
    {arguments : List (String × Scalar)} (h : Argument ws a) (hs : Closing vs arguments) :
    Closing (ws ++ .comma :: vs) (a :: arguments) := by
  rcases hs with ⟨rfl, rfl⟩ | ⟨us, rfl, hus⟩
  · exact .inr ⟨ws ++ [.comma], by simp, .comma h⟩
  · exact .inr ⟨ws ++ .comma :: us, by simp, .more h hus⟩

theorem argumentsFrom_sound (h : argumentsFrom stop found ts = .ok (all, rest))
    (hfound : (found.map (·.1)).Nodup) :
    ∃ read arguments, ts = read ++ rest ∧ all = found ++ arguments ∧
      Closing (words read) arguments ∧ (all.map (·.1)).Nodup := by
  have hsnoc {found : List (String × Scalar)} {a : String × Scalar}
      (hfound : (found.map (·.1)).Nodup) (hnew : ¬found.any (·.1 == a.1) = true) :
      ((found ++ [a]).map (·.1)).Nodup := nodup_snoc hfound (mt any_key_iff_mem.mpr hnew)
  fun_induction argumentsFrom stop found ts with
  | case1 found ts hparen =>
    cases h
    obtain ⟨p, hp, htoken⟩ := Option.map_eq_some_iff.mp hparen
    obtain ⟨more, rfl⟩ := List.head?_eq_some_iff.mp hp
    refine ⟨[p], [], rfl, (List.append_nil _).symm, .inl ⟨?_, rfl⟩, hfound⟩
    rw [words_cons, words_nil, htoken]
  | case2 => cases h
  | case3 => cases h
  | case4 found ts hparen a hnew offset more hargument _ ih =>
    obtain ⟨read, rfl, hread⟩ := argument_eq_ok_iff.mp hargument
    obtain ⟨read', arguments, rfl, rfl, hclosing, hnodup⟩ := ih h (hsnoc hfound hnew)
    refine ⟨read ++ ⟨offset, .comma⟩ :: read', a :: arguments, ?_, ?_, ?_, hnodup⟩
    · rw [List.append_assoc, List.cons_append]
    · rw [List.append_assoc, List.singleton_append]
    · rw [words_append, words_cons]
      exact closing_more hread hclosing
  | case5 found ts hparen a hnew offset more hargument =>
    cases h
    obtain ⟨read, rfl, hread⟩ := argument_eq_ok_iff.mp hargument
    refine ⟨read ++ [⟨offset, .rparen⟩], [a], ?_, rfl, ?_, hsnoc hfound hnew⟩
    · rw [List.append_assoc, List.singleton_append]
    · rw [words_append, words_cons]
      exact closing_last hread
  | case6 => cases h

theorem argumentsFrom_argument {a : String × Scalar} (h : argument stop ts = .ok (a, rest))
    (hnew : a.1 ∉ found.map (·.1)) :
    argumentsFrom stop found ts =
      match rest with
      | ⟨_, .comma⟩ :: more => argumentsFrom stop (found ++ [a]) more
      | ⟨_, .rparen⟩ :: more => .ok (found ++ [a], more)
      | _ => unexpected stop rest .commaOrParen := by
  have hparen : ¬ts.head?.map (·.token) = some .rparen := by
    obtain ⟨read, rfl, hread⟩ := argument_eq_ok_iff.mp h
    generalize hw : words read = ws at hread
    cases hread with
    | keyword =>
      obtain ⟨_, _, rfl, -⟩ := words_eq_cons_iff.mp hw
      simp
  rw [← any_key_iff_mem] at hnew
  rw [argumentsFrom, if_neg hparen]
  split
  · rename_i herror
    rw [h] at herror
    cases herror
  · rename_i hok
    rw [h] at hok
    cases hok
    rw [if_neg hnew]
    rcases rest with _ | ⟨⟨offset, t⟩, more⟩
    · rfl
    · cases t <;> rfl

theorem notMem_of_nodup {a : String × Scalar} {others : List (String × Scalar)}
    (h : ((found ++ a :: others).map (·.1)).Nodup) : a.1 ∉ found.map (·.1) := by
  intro hmem
  rw [List.map_append, List.nodup_append] at h
  exact h.2.2 a.1 hmem a.1 List.mem_cons_self rfl

theorem argumentsFrom_applied {read : List Placed} {arguments : List (String × Scalar)}
    {offset : Nat} (h : Arguments (words read) arguments)
    (hdistinct : ((found ++ arguments).map (·.1)).Nodup) :
    argumentsFrom stop found (read ++ ⟨offset, .rparen⟩ :: rest) =
      .ok (found ++ arguments, rest) := by
  generalize hw : words read = ws at h
  induction h generalizing found read with
  | last ha =>
    subst hw
    have hargument : argument stop (read ++ ⟨offset, .rparen⟩ :: rest) = .ok (_, _) :=
      argument_eq_ok_iff.mpr ⟨read, rfl, ha⟩
    rw [argumentsFrom_argument hargument (notMem_of_nodup hdistinct)]
  | @comma ts a ha =>
    obtain ⟨us, vs, rfl, rfl, hvs⟩ := words_eq_append_iff.mp hw
    obtain ⟨o, more, rfl, hmore⟩ := words_eq_cons_iff.mp hvs
    obtain rfl := words_eq_nil_iff.mp hmore
    rw [List.append_assoc, List.singleton_append]
    have hargument : argument stop (us ++ ⟨o, .comma⟩ :: ⟨offset, .rparen⟩ :: rest) = .ok (a, _) :=
      argument_eq_ok_iff.mpr ⟨us, rfl, ha⟩
    rw [argumentsFrom_argument hargument (notMem_of_nodup hdistinct)]
    simp only
    rw [argumentsFrom]
    rfl
  | @more ts us a arguments ha hs ih =>
    obtain ⟨read, vs, rfl, rfl, hvs⟩ := words_eq_append_iff.mp hw
    obtain ⟨o, more, rfl, rfl⟩ := words_eq_cons_iff.mp hvs
    rw [List.append_assoc, List.cons_append]
    have hargument :
        argument stop (read ++ ⟨o, .comma⟩ :: (more ++ ⟨offset, .rparen⟩ :: rest)) = .ok (a, _) :=
      argument_eq_ok_iff.mpr ⟨read, rfl, ha⟩
    rw [argumentsFrom_argument hargument (notMem_of_nodup hdistinct)]
    have happend : found ++ a :: arguments = found ++ [a] ++ arguments := by simp
    rw [happend] at hdistinct ⊢
    exact ih hdistinct rfl

theorem argumentsFrom_complete {read : List Placed} {arguments : List (String × Scalar)}
    (h : Closing (words read) arguments) (hdistinct : ((found ++ arguments).map (·.1)).Nodup) :
    argumentsFrom stop found (read ++ rest) = .ok (found ++ arguments, rest) := by
  rcases h with ⟨hw, rfl⟩ | ⟨vs, hw, hvs⟩
  · obtain ⟨offset, us, rfl, hus⟩ := words_eq_cons_iff.mp hw
    rw [words_eq_nil_iff.mp hus, List.append_nil, argumentsFrom]
    rfl
  · obtain ⟨us, close, rfl, rfl, hclose⟩ := words_eq_append_iff.mp hw
    obtain ⟨offset, more, rfl, hmore⟩ := words_eq_cons_iff.mp hclose
    rw [words_eq_nil_iff.mp hmore, List.append_assoc, List.singleton_append]
    exact argumentsFrom_applied hvs hdistinct

end DesignProcess.CallSpec
