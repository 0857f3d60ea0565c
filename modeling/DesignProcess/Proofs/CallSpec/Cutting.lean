import DesignProcess.Proofs.CallSpec.Lexing

/-!
Cutting the head of a text into tokens. No token reaches across one of the characters that are
tokens by themselves, unless it is a string.
-/

namespace DesignProcess.CallSpec

/-- The text can be cut into the tokens down to the rest, which is not looked at. -/
inductive Cuts : List Char → List Token → List Char → Prop
  | done (cs : List Char) : Cuts cs [] cs
  | gap {c : Char} {r rest : List Char} {ts : List Token} (hgap : isGap c = true)
      (h : Cuts r ts rest) : Cuts (c :: r) ts rest
  | token {cs mid rest : List Char} {t : Token} {ts : List Token} (hnext : Longest cs t mid)
      (h : Cuts mid ts rest) : Cuts cs (t :: ts) rest

theorem Cuts.trans {cs mid rest : List Char} {ts us : List Token} (h : Cuts cs ts mid)
    (h' : Cuts mid us rest) : Cuts cs (ts ++ us) rest := by
  induction h with
  | done => exact h'
  | gap hgap _ ih => exact .gap hgap (ih h')
  | token hnext _ ih => exact .token hnext (ih h')

theorem cuts_token {cs rest : List Char} {t : Token} (h : Longest cs t rest) : Cuts cs [t] rest :=
  .token h (.done rest)

theorem Cuts.lexes_iff {cs rest : List Char} {ts us : List Token} (h : Cuts cs ts rest) :
    Lexes cs us ↔ ∃ vs, us = ts ++ vs ∧ Lexes rest vs := by
  induction h generalizing us with
  | done => simp
  | @gap c r rest ts hgap _ ih =>
    rw [← ih]
    constructor
    · intro h
      cases h with
      | gap _ h => exact h
      | token hnext _ =>
        have hread := (Token.next_eq_some_iff _ _ _).mpr hnext
        rw [next_gap hgap] at hread
        cases hread
    · exact .gap hgap
  | @token cs mid rest t ts hnext _ ih =>
    have hread := (Token.next_eq_some_iff _ _ _).mpr hnext
    constructor
    · intro h
      cases h with
      | nil => cases hread
      | gap hgap _ =>
        rw [next_gap hgap] at hread
        cases hread
      | token hnext' h' =>
        have hread' := (Token.next_eq_some_iff _ _ _).mpr hnext'
        rw [hread] at hread'
        cases hread'
        obtain ⟨vs, rfl, hvs⟩ := ih.mp h'
        exact ⟨vs, rfl, hvs⟩
    · rintro ⟨vs, rfl, hvs⟩
      exact .token hnext (ih.mpr ⟨vs, rfl, hvs⟩)

inductive Mark : Char → Token → Prop
  | lparen : Mark '(' .lparen
  | rparen : Mark ')' .rparen
  | comma : Mark ',' .comma
  | equals : Mark '=' .equals

variable {c : Char} {m : Token}

theorem Mark.longest (h : Mark c m) (r : List Char) : Longest (c :: r) m r := by
  apply (Token.next_eq_some_iff _ _ _).mp
  cases h <;> rfl

theorem Mark.not_isNameChar (h : Mark c m) : isNameChar c = false := by
  cases h <;> rfl

theorem Mark.not_isNameStart (h : Mark c m) : isNameStart c = false := by
  cases h <;> rfl

theorem Mark.not_isDigit (h : Mark c m) : c.isDigit = false := by
  cases h <;> rfl

theorem Mark.notMem_digits (h : Mark c m) {ds : List Char} (hd : Digits ds) : c ∉ ds := by
  intro hmem
  have hdigit := hd c hmem
  rw [h.not_isDigit] at hdigit
  cases hdigit

theorem Mark.notMem_exponent (h : Mark c m) {e : List Char} (he : Exponent e) : c ∉ e := by
  cases he with
  | none => exact List.not_mem_nil
  | scaled hmark hsign _ hd =>
    rw [List.mem_cons, List.mem_append]
    rintro (rfl | hs | hds)
    · rcases hmark with rfl | rfl <;> cases h
    · rcases hsign with rfl | rfl | rfl
      · cases hs
      · obtain rfl := List.mem_singleton.mp hs
        cases h
      · obtain rfl := List.mem_singleton.mp hs
        cases h
    · exact h.notMem_digits hd hds

theorem Mark.notMem_word (h : Mark c m) {d : Char} {r : List Char} (hstart : isNameStart d = true)
    (hrest : ∀ x ∈ r, isNameChar x = true) : c ∉ d :: r := by
  rw [List.mem_cons]
  rintro (rfl | hmem)
  · rw [h.not_isNameStart] at hstart
    cases hstart
  · have hname := hrest c hmem
    rw [h.not_isNameChar] at hname
    cases hname

theorem Mark.notMem_fraction (h : Mark c m) {ds e : List Char} (hd : Digits ds)
    (he : Exponent e) : c ∉ '.' :: (ds ++ e) := by
  rw [List.mem_cons, List.mem_append]
  rintro (rfl | hds | hexponent)
  · cases h
  · exact h.notMem_digits hd hds
  · exact h.notMem_exponent he hexponent

theorem Mark.eq_of_mem (h : Mark c m) {lexeme : List Char} {t : Token} (ht : Spells lexeme t)
    (hmem : c ∈ lexeme) : lexeme = [c] ∨ ∃ content, t = .str content := by
  cases ht with
  | lparen | rparen | comma | equals | dot | minus | plus =>
    rw [List.mem_singleton.mp hmem]
    exact .inl rfl
  | boolean hword =>
    obtain ⟨d, r, hshape, hstart, hrest⟩ := Token.booleanWords_shape hword
    rw [hshape] at hmem
    exact absurd hmem (h.notMem_word hstart hrest)
  | ident hname hstart hrest =>
    rw [hname] at hmem
    exact absurd hmem (h.notMem_word hstart hrest)
  | integer _ hd => exact absurd hmem (h.notMem_digits hd)
  | pointed htext _ hwhole hd he =>
    rw [htext, List.mem_append] at hmem
    rcases hmem with hmem | hmem
    · exact absurd hmem (h.notMem_digits hwhole)
    · exact absurd hmem (h.notMem_fraction hd he)
  | fraction htext _ hd he =>
    rw [htext] at hmem
    exact absurd hmem (h.notMem_fraction hd he)
  | scaled htext _ hwhole _ he =>
    rw [htext, List.mem_append] at hmem
    rcases hmem with hmem | hmem
    · exact absurd hmem (h.notMem_digits hwhole)
    · exact absurd hmem (h.notMem_exponent he)
  | str => exact .inr ⟨_, rfl⟩

theorem spells_ne_nil {lexeme : List Char} {t : Token} (h : Spells lexeme t) : lexeme ≠ [] := by
  rintro rfl
  obtain ⟨_, _, _, -, hnext, -⟩ := Token.spells_readsThrough h []
  cases hnext

theorem str_of_quote {quote : Char} {r rest : List Char} {t : Token}
    (hquote : quote = '\'' ∨ quote = '"') (h : Token.next? (quote :: r) = some (t, rest)) :
    ∃ content, t = .str content := by
  have hquoted : Token.quoted? quote r = some (t, rest) := by
    rcases hquote with rfl | rfl <;> exact h
  unfold Token.quoted? at hquoted
  split at hquoted
  · cases hquoted
  · split at hquoted
    · cases hquoted
      exact ⟨_, rfl⟩
    · cases hquoted

theorem str_of_prefix {lexeme extra : List Char} {t : Token} {content : String}
    (h : Spells lexeme t) (hs : Spells (lexeme ++ extra) (.str content)) :
    ∃ content, t = .str content := by
  obtain ⟨c, r, rfl⟩ := List.exists_cons_of_ne_nil (spells_ne_nil h)
  obtain ⟨t', extra', rest, htail, hnext, htoken⟩ := Token.spells_readsThrough h []
  obtain ⟨hextra, -⟩ := List.append_eq_nil_iff.mp htail.symm
  rw [htoken hextra, List.append_nil] at hnext
  rw [List.cons_append] at hs
  generalize hwhole : c :: (r ++ extra) = whole at hs
  cases hs with
  | str hquote =>
    rw [(List.cons.inj hwhole).1] at hnext
    exact str_of_quote hquote hnext

theorem longest_before_mark {lexeme : List Char} {t : Token} (h : Spells lexeme t)
    (hstr : ∀ content, t ≠ .str content) (hc : Mark c m) (r : List Char) :
    Longest (lexeme ++ c :: r) t (c :: r) := by
  obtain ⟨t', extra, rest, htail, hnext, htoken⟩ := Token.spells_readsThrough h (c :: r)
  cases extra with
  | nil =>
    rw [htoken rfl, ← List.nil_append rest, ← htail] at hnext
    exact (Token.next_eq_some_iff _ _ _).mp hnext
  | cons d more =>
    obtain ⟨rfl, rfl⟩ := List.cons.inj htail
    obtain ⟨longer, hsplit, hlonger⟩ := Token.next_sound hnext
    have hwhole : longer ++ rest = (lexeme ++ c :: more) ++ rest := by
      rw [← hsplit, List.append_assoc]
      rfl
    obtain rfl := List.append_cancel_right hwhole
    rcases hc.eq_of_mem hlonger (by simp) with hsingle | ⟨content, rfl⟩
    · have hlength := congrArg List.length hsingle
      have hpos := List.length_pos_iff.mpr (spells_ne_nil h)
      simp only [List.length_append, List.length_cons, List.length_nil] at hlength
      omega
    · obtain ⟨content', rfl⟩ := str_of_prefix h hlonger
      exact absurd rfl (hstr content')

theorem longest_str {content : String} (h : ∀ x ∈ content.toList, x ≠ '\'' ∧ x ≠ '\\' ∧ x ≠ '\n')
    (r : List Char) : Longest ('\'' :: (content.toList ++ '\'' :: r)) (.str content) r := by
  apply (Token.next_eq_some_iff _ _ _).mp
  exact Token.quoted_append h r

theorem ident_shape {lexeme : List Char} {name : String} (h : Spells lexeme (.ident name)) :
    ∃ d r, name.toList = d :: r ∧ isNameStart d = true ∧ (∀ x ∈ r, isNameChar x = true) ∧
      name ∉ booleanWords.map (·.1) := by
  cases h with
  | ident hname hstart hrest hword => exact ⟨_, _, hname, hstart, hrest, hword⟩

theorem longest_ident {lexeme : List Char} {name : String} (h : Spells lexeme (.ident name))
    {d : Char} (hd : isNameChar d = false) (r : List Char) :
    Longest (name.toList ++ d :: r) (.ident name) (d :: r) := by
  obtain ⟨first, rest, hname, hstart, hrest, hword⟩ := ident_shape h
  apply (Token.next_eq_some_iff _ _ _).mp
  have hread := Token.next_word hstart hrest (d :: r)
  rwa [List.takeWhile_cons_of_neg (by simp [hd]), List.dropWhile_cons_of_neg (by simp [hd]),
    List.append_nil, ← hname, Token.ofWord_ident hword] at hread

theorem not_isDigit_of_isNameStart {d : Char} (h : isNameStart d = true) : d.isDigit = false := by
  rw [← Bool.not_eq_true]
  intro hdigit
  rw [Token.not_isNameStart_of_isDigit hdigit] at h
  cases h

theorem longest_dot_of_no_digit {r : List Char} (h : ¬r.head?.any Char.isDigit = true) :
    Longest ('.' :: r) .dot r := by
  apply (Token.next_eq_some_iff _ _ _).mp
  rw [Token.next_point, Token.dotted, if_neg h]

theorem longest_dot {lexeme : List Char} {name : String} (h : Spells lexeme (.ident name))
    (r : List Char) : Longest ('.' :: (name.toList ++ r)) .dot (name.toList ++ r) := by
  obtain ⟨first, rest, hname, hstart, -, -⟩ := ident_shape h
  apply longest_dot_of_no_digit
  rw [hname]
  simp [not_isDigit_of_isNameStart hstart]

theorem longest_minus (r : List Char) : Longest ('-' :: r) .minus r := by
  apply (Token.next_eq_some_iff _ _ _).mp
  rfl

end DesignProcess.CallSpec
