import DesignProcess.CallSpec.Reading
import DesignProcess.Proofs.CallSpec.LongestMatch
import DesignProcess.Proofs.Outcome

namespace DesignProcess.CallSpec

inductive Lexes : List Char → List Token → Prop
  | nil : Lexes [] []
  | gap {c : Char} {r : List Char} {ts : List Token} (hgap : isGap c = true) (h : Lexes r ts) :
      Lexes (c :: r) ts
  | token {cs rest : List Char} {t : Token} {ts : List Token} (hnext : Longest cs t rest)
      (h : Lexes rest ts) : Lexes cs (t :: ts)

theorem next_gap {c : Char} (h : isGap c = true) (r : List Char) :
    Token.next? (c :: r) = none := by
  simp only [isGap, Bool.or_eq_true, beq_iff_eq] at h
  rcases h with ((rfl | rfl) | rfl) | rfl <;> rfl

theorem lexes_of_tokens {offset : Nat} {cs : List Char} {placed : List Placed}
    (h : tokens offset cs = .ok placed) : Lexes cs (placed.map (·.token)) := by
  fun_induction tokens offset cs generalizing placed with
  | case1 =>
    cases h
    exact .nil
  | case2 offset c r hgap ih => exact .gap hgap (ih h)
  | case3 => cases h
  | case4 offset c r hgap t rest hnext =>
    rename_i ih
    obtain ⟨found, hfound, rfl⟩ := Except.map_eq_ok_iff.mp h
    exact .token ((Token.next_eq_some_iff _ _ _).mp hnext) (ih hfound)

theorem tokens_of_lexes {cs : List Char} {ts : List Token} (h : Lexes cs ts) (offset : Nat) :
    ∃ placed, tokens offset cs = .ok placed ∧ placed.map (·.token) = ts := by
  induction h generalizing offset with
  | nil =>
    rw [tokens]
    exact ⟨[], rfl, rfl⟩
  | @gap c r ts hgap _ ih =>
    obtain ⟨placed, hplaced, htokens⟩ := ih (offset + 1)
    rw [tokens, if_pos hgap]
    exact ⟨placed, hplaced, htokens⟩
  | @token cs rest t ts hnext _ ih =>
    have hread := (Token.next_eq_some_iff cs rest t).mpr hnext
    cases cs with
    | nil => cases hread
    | cons c r =>
      have hgap : ¬isGap c = true := by
        intro hgap
        rw [next_gap hgap] at hread
        cases hread
      obtain ⟨placed, hplaced, htokens⟩ :=
        ih (offset + (Text.byteLength (c :: r) - Text.byteLength rest))
      rw [tokens, if_neg hgap]
      split
      · rename_i hnone
        rw [hread] at hnone
        cases hnone
      · rename_i t' rest' hsome
        rw [hread] at hsome
        cases hsome
        refine ⟨⟨offset, t⟩ :: placed, ?_, ?_⟩
        · simp only [hplaced]
          rfl
        · rw [List.map_cons, htokens]

theorem spells_of_mem {cs : List Char} {ts : List Token} (h : Lexes cs ts) {t : Token}
    (ht : t ∈ ts) : ∃ lexeme, Spells lexeme t := by
  induction h with
  | nil => cases ht
  | gap _ _ ih => exact ih ht
  | token hnext _ ih =>
    obtain ⟨lexeme, -, hspells, -⟩ := hnext
    rcases List.mem_cons.mp ht with rfl | hmem
    · exact ⟨lexeme, hspells⟩
    · exact ih hmem

theorem dot_notMem_of_ident {lexeme : List Char} {name : String}
    (h : Spells lexeme (.ident name)) : '.' ∉ name.toList := by
  cases h with
  | ident hname hstart hrest =>
    rw [hname, List.mem_cons]
    rintro (rfl | hdot)
    · cases hstart
    · cases hrest _ hdot

end DesignProcess.CallSpec
