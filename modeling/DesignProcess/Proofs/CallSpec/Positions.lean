import DesignProcess.Proofs.CallSpec.Cutting
import DesignProcess.Proofs.CallSpec.Grammar

namespace DesignProcess.CallSpec

def Stuck (cs : List Char) : Prop :=
  (∃ c r, cs = c :: r ∧ isGap c = false) ∧
    ∀ lexeme rest t, cs = lexeme ++ rest → ¬Spells lexeme t

theorem byteLength_gap {c : Char} (h : isGap c = true) (r : List Char) :
    Text.byteLength (c :: r) = 1 + Text.byteLength r := by
  simp only [isGap, Bool.or_eq_true, beq_iff_eq] at h
  rcases h with ((rfl | rfl) | rfl) | rfl <;> rfl

theorem byteLength_next {cs rest : List Char} {t : Token} (h : Token.next? cs = some (t, rest)) :
    ∃ lexeme, cs = lexeme ++ rest ∧
      Text.byteLength cs - Text.byteLength rest = Text.byteLength lexeme := by
  obtain ⟨lexeme, rfl, -⟩ := Token.next_sound h
  refine ⟨lexeme, rfl, ?_⟩
  rw [Text.byteLength_append, Nat.add_sub_cancel]

theorem stuck_of_next {c : Char} {r : List Char} (hgap : ¬isGap c = true)
    (h : Token.next? (c :: r) = none) : Stuck (c :: r) := by
  refine ⟨⟨c, r, rfl, Bool.eq_false_iff.mpr hgap⟩, ?_⟩
  intro lexeme rest t hsplit hspells
  obtain ⟨_, _, _, -, hnext, -⟩ := Token.spells_readsThrough hspells rest
  rw [← hsplit, h] at hnext
  cases hnext

theorem cuts_of_tokens {offset : Nat} {cs : List Char} {before after : List Placed}
    (h : tokens offset cs = .ok (before ++ after)) :
    ∃ read rest, cs = read ++ rest ∧ Cuts cs (words before) rest ∧
      position (offset + Text.byteLength cs) after = offset + Text.byteLength read ∧
      (after = [] → rest = []) ∧
      ∀ p more, after = p :: more → ∃ tail, Longest rest p.token tail := by
  fun_induction tokens offset cs generalizing before with
  | case1 offset =>
    obtain ⟨rfl, rfl⟩ := List.append_eq_nil_iff.mp (Except.ok.inj h).symm
    refine ⟨[], [], rfl, .done _, rfl, fun _ => rfl, ?_⟩
    intro p more heq
    cases heq
  | case2 offset c r hgap ih =>
    obtain ⟨read, rest, rfl, hcuts, hoffset, hend, hnext⟩ := ih h
    refine ⟨c :: read, rest, rfl, .gap hgap hcuts, ?_, hend, hnext⟩
    rw [byteLength_gap hgap, byteLength_gap hgap, ← Nat.add_assoc, ← Nat.add_assoc]
    exact hoffset
  | case3 => cases h
  | case4 offset c r hgap t rest hread =>
    rename_i passed ih
    obtain ⟨placed, hplaced, heq⟩ := Except.map_eq_ok_iff.mp h
    have hlongest : Longest (c :: r) t rest := (Token.next_eq_some_iff _ _ _).mp hread
    rcases before with _ | ⟨first, before⟩
    · rw [List.nil_append] at heq
      subst heq
      refine ⟨[], c :: r, rfl, .done _, rfl, fun hend => absurd hend (List.cons_ne_nil _ _), ?_⟩
      rintro p more heq
      cases heq
      exact ⟨rest, hlongest⟩
    · obtain ⟨rfl, rfl⟩ := List.cons.inj heq
      obtain ⟨lexeme, hsplit, hpassed⟩ := byteLength_next hread
      obtain ⟨read, rest', rfl, hcuts, hoffset, hend, hnext⟩ := ih hplaced
      refine ⟨lexeme ++ read, rest', ?_, .token hlongest hcuts, ?_, hend, hnext⟩
      · rw [hsplit, List.append_assoc]
      · have hstop : offset + Text.byteLength (c :: r) =
            offset + Text.byteLength lexeme + Text.byteLength (read ++ rest') := by
          rw [hsplit, Text.byteLength_append, Nat.add_assoc]
        have hlexeme : passed = Text.byteLength lexeme := hpassed
        rw [hlexeme] at hoffset
        rw [hstop, hoffset, Text.byteLength_append, Nat.add_assoc]

theorem stuck_of_tokens {offset : Nat} {cs : List Char} {e : Error}
    (h : tokens offset cs = .error e) :
    ∃ before read rest, cs = read ++ rest ∧ Cuts cs before rest ∧ Stuck rest ∧
      e.offset = offset + Text.byteLength read := by
  fun_induction tokens offset cs with
  | case1 => cases h
  | case2 offset c r hgap ih =>
    obtain ⟨before, read, rest, rfl, hcuts, hstuck, hoffset⟩ := ih h
    refine ⟨before, c :: read, rest, rfl, .gap hgap hcuts, hstuck, ?_⟩
    rw [hoffset, byteLength_gap hgap, Nat.add_assoc]
  | case3 offset c r hgap hnone =>
    cases h
    exact ⟨[], [], c :: r, rfl, .done _, stuck_of_next hgap hnone, rfl⟩
  | case4 offset c r hgap t rest hread =>
    rename_i ih
    obtain ⟨lexeme, hsplit, hpassed⟩ := byteLength_next hread
    obtain ⟨before, read, rest', rfl, hcuts, hstuck, hoffset⟩ := ih (Except.map_eq_error_iff.mp h)
    have hlongest : Longest (c :: r) t (read ++ rest') := (Token.next_eq_some_iff _ _ _).mp hread
    refine ⟨t :: before, lexeme ++ read, rest', ?_, .token hlongest hcuts, hstuck, ?_⟩
    · rw [hsplit, List.append_assoc]
    · rw [hoffset, Text.byteLength_append, ← hpassed, Nat.add_assoc]

end DesignProcess.CallSpec
