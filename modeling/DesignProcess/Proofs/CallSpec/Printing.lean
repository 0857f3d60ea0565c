import DesignProcess.Proofs.CallSpec.Cutting
import DesignProcess.Proofs.CallSpec.FloatText
import DesignProcess.Proofs.CallSpec.WellFormed

namespace DesignProcess.CallSpec

inductive Printable : Scalar → Prop
  | boolean (b : Bool) : Printable (.boolean b)
  | integer (n : Int64) : Printable (.integer n)
  | float {x : Float} (hfinite : x.isFinite = true)
      (hback : Decimal.float? (Decimal.literal.text x) = some x) : Printable (.float x)
  | string {s : String} (h : ∀ c ∈ s.toList, c ≠ '\'' ∧ c ≠ '\\' ∧ c ≠ '\n') :
      Printable (.string s)

def Prints (cs : List Char) (ts : List Token) : Prop :=
  ∀ c m, Mark c m → ∀ r, Cuts (cs ++ c :: r) ts (c :: r)

theorem prints_of_spells {lexeme : List Char} {t : Token} (h : Spells lexeme t)
    (hstr : ∀ content, t ≠ .str content) : Prints lexeme [t] := by
  intro c m hc r
  exact cuts_token (longest_before_mark h hstr hc r)

theorem prints_signed {negative : Bool} {lexeme : List Char} {t : Token} {v : Scalar}
    (h : Spells lexeme t) (hv : Numeral negative t v) :
    ∃ ts, Literal ts v ∧ Prints ((if negative then ['-'] else []) ++ lexeme) ts := by
  have hstr : ∀ content, t ≠ .str content := by
    rintro content rfl
    cases hv
  cases negative with
  | false => exact ⟨[t], .unsigned hv, prints_of_spells h hstr⟩
  | true =>
    refine ⟨[.minus, t], .minus hv, ?_⟩
    intro c m hc r
    exact .token (longest_minus _) (prints_of_spells h hstr c m hc r)

theorem prints_integer (n : Int64) :
    ∃ ts, Literal ts (.integer n) ∧ Prints (Decimal.signed n.toInt) ts := by
  have hdigits : (String.ofList (Nat.toDigits 10 n.toInt.natAbs)).toList =
      Nat.toDigits 10 n.toInt.natAbs := String.toList_ofList
  have hspells : Spells (String.ofList (Nat.toDigits 10 n.toInt.natAbs)).toList
      (.integer (String.ofList (Nat.toDigits 10 n.toInt.natAbs))) := by
    apply Spells.integer
    · rw [hdigits]
      exact Nat.toDigits_ne_nil
    · rw [hdigits]
      exact digits_toDigits _
  have hvalue : Numeral (decide (n.toInt < 0))
      (.integer (String.ofList (Nat.toDigits 10 n.toInt.natAbs))) (.integer n) := by
    apply Numeral.integer
    rw [hdigits, Decimal.natOfDigits, Nat.ofDigitChars_ten_toDigits]
    by_cases h : n.toInt < 0
    · simp only [h, decide_true, if_true]
      omega
    · simp only [h, decide_false, Bool.false_eq_true, if_false]
      omega
  have hprints := prints_signed hspells hvalue
  rwa [hdigits, ← signed_eq] at hprints

theorem float_head {lexeme : List Char} {digits : String} (h : Spells lexeme (.float digits)) :
    ∃ d r, digits.toList = d :: r ∧ d ≠ '-' ∧ d ≠ '+' := by
  have hdigit {d : Char} (hd : d.isDigit = true) : d ≠ '-' ∧ d ≠ '+' := by
    constructor
    · rintro rfl
      cases hd
    · rintro rfl
      cases hd
  cases h with
  | pointed htext hne hwhole | scaled htext hne hwhole =>
    obtain ⟨d, r, rfl⟩ := List.exists_cons_of_ne_nil hne
    rw [htext]
    exact ⟨d, _, rfl, hdigit (hwhole d List.mem_cons_self)⟩
  | fraction htext =>
    rw [htext]
    exact ⟨'.', _, rfl, by decide, by decide⟩

theorem numeral_of_float {negative : Bool} {lexeme : List Char} {digits : String} {x : Float}
    (h : Spells lexeme (.float digits)) (hfinite : x.isFinite = true)
    (hback : Decimal.float? ((if negative then ['-'] else []) ++ digits.toList) = some x) :
    Numeral negative (.float digits) (.float x) := by
  cases negative with
  | false =>
    obtain ⟨d, r, hdigits, hminus, hplus⟩ := float_head h
    have hunsigned : (Decimal.Numeral.ofText? digits.toList).map Decimal.Numeral.toFloat =
        some x := by
      rw [if_neg Bool.false_ne_true, List.nil_append, hdigits] at hback
      unfold Decimal.float? at hback
      split at hback
      · rename_i heq
        exact absurd (List.cons.inj heq).1 hminus
      · rename_i heq
        exact absurd (List.cons.inj heq).1 hplus
      · rwa [← hdigits] at hback
    obtain ⟨n, hn, rfl⟩ := Option.map_eq_some_iff.mp hunsigned
    have hnumeral : Numeral false (.float digits)
        (.float (if false = true then -n.toFloat else n.toFloat)) := .float hn hfinite
    rwa [if_neg Bool.false_ne_true] at hnumeral
  | true =>
    obtain ⟨n, hn, rfl⟩ := Option.map_eq_some_iff.mp hback
    have hnumeral : Numeral true (.float digits)
        (.float (if true = true then -n.toFloat else n.toFloat)) :=
      .float hn ((Decimal.isFinite_neg _).mp hfinite)
    rwa [if_pos rfl] at hnumeral

theorem prints_scalar {v : Scalar} (h : Printable v) : ∃ ts, Literal ts v ∧ Prints v.text ts := by
  cases h with
  | boolean b =>
    have hword : (cond b "true" "false", b) ∈ booleanWords := by
      cases b <;> decide
    have hspells := Spells.boolean hword
    refine ⟨[.boolean b], .boolean b, ?_⟩
    cases b with
    | false => exact prints_of_spells hspells nofun
    | true => exact prints_of_spells hspells nofun
  | integer n => exact prints_integer n
  | @float x hfinite hback =>
    obtain ⟨negative, digits, htext, hspells⟩ := text_spells hfinite
    rw [htext] at hback
    have hprints := prints_signed hspells (numeral_of_float hspells hfinite hback)
    rwa [← htext] at hprints
  | @string s hs =>
    refine ⟨[.str s], .str s, ?_⟩
    intro c m hc r
    have htext : (Scalar.string s).text ++ c :: r = '\'' :: (s.toList ++ '\'' :: c :: r) := by
      simp
    rw [htext]
    exact cuts_token (longest_str hs (c :: r))

theorem toList_renderArgument (a : String × Scalar) :
    (renderArgument a).toList = a.1.toList ++ '=' :: a.2.text := by
  simp [renderArgument, Scalar.render]

theorem cuts_keyword {name : String} (h : IsIdent name) {cs rest : List Char} {ts : List Token}
    (hcs : Cuts cs ts rest) :
    Cuts (name.toList ++ '=' :: cs) (.ident name :: .equals :: ts) rest := by
  obtain ⟨lexeme, hspells⟩ := h
  apply Cuts.token (longest_ident hspells Mark.equals.not_isNameChar cs)
  exact .token (Mark.equals.longest cs) hcs

theorem prints_argument {a : String × Scalar} (hname : IsIdent a.1) (hv : Printable a.2) :
    ∃ ts, Argument ts a ∧ Prints (renderArgument a).toList ts := by
  obtain ⟨ts, hts, hprints⟩ := prints_scalar hv
  refine ⟨_, .keyword a.1 hts, ?_⟩
  intro c m hc r
  rw [toList_renderArgument, List.append_assoc, List.cons_append]
  exact cuts_keyword hname (hprints c m hc r)

inductive Led : List Token → List (String × Scalar) → Prop
  | nil : Led [] []
  | cons {ts us : List Token} {a : String × Scalar} {arguments : List (String × Scalar)}
      (h : Argument ts a) (hs : Led us arguments) : Led (ts ++ .comma :: us) (a :: arguments)

theorem Led.closing {ts us : List Token} {before after : List (String × Scalar)}
    (h : Led ts before) (hs : Closing us after) : Closing (ts ++ us) (before ++ after) := by
  induction h with
  | nil => exact hs
  | cons ha _ ih =>
    rw [List.append_assoc, List.cons_append, List.cons_append]
    exact closing_more ha ih

def renderLed (arguments : List (String × Scalar)) : List Char :=
  arguments.flatMap fun a => (renderArgument a).toList ++ [',', ' ']

theorem cuts_led {arguments : List (String × Scalar)}
    (h : ∀ a ∈ arguments, IsIdent a.1 ∧ Printable a.2) :
    ∃ ts, Led ts arguments ∧ ∀ r, Cuts (renderLed arguments ++ r) ts r := by
  induction arguments with
  | nil => exact ⟨[], .nil, .done⟩
  | cons a rest ih =>
    obtain ⟨⟨hname, hv⟩, hrest⟩ := List.forall_mem_cons.mp h
    obtain ⟨us, hled, hus⟩ := ih hrest
    obtain ⟨ts, hts, hprints⟩ := prints_argument hname hv
    refine ⟨_, .cons hts hled, ?_⟩
    intro r
    have hcut : Cuts (',' :: ' ' :: (renderLed rest ++ r)) (.comma :: us) r := by
      apply Cuts.token (Mark.comma.longest _)
      exact .gap rfl (hus r)
    have hsplit : renderLed (a :: rest) ++ r =
        (renderArgument a).toList ++ ',' :: ' ' :: (renderLed rest ++ r) := by
      simp [renderLed]
    rw [hsplit]
    exact (hprints ',' .comma .comma _).trans hcut

theorem cuts_names {first : String} {others : List String}
    (h : ∀ name ∈ first :: others, IsIdent name) :
    ∃ ts, OtherNames ts others ∧ ∀ r,
      Cuts ((String.intercalate "." (first :: others)).toList ++ '(' :: r) (.ident first :: ts)
        ('(' :: r) := by
  induction others generalizing first with
  | nil =>
    obtain ⟨lexeme, hspells⟩ := h first List.mem_cons_self
    refine ⟨[], .none, ?_⟩
    intro r
    rw [String.intercalate_singleton]
    exact cuts_token (longest_ident hspells Mark.lparen.not_isNameChar r)
  | cons second others ih =>
    obtain ⟨⟨lexeme, hspells⟩, hothers⟩ := List.forall_mem_cons.mp h
    obtain ⟨lexeme', hspells'⟩ := hothers second List.mem_cons_self
    obtain ⟨ts, hts, hcuts⟩ := ih hothers
    refine ⟨_, .dot second hts, ?_⟩
    intro r
    obtain ⟨more, hmore⟩ : ∃ more, (String.intercalate "." (second :: others)).toList =
        second.toList ++ more := by
      cases others with
      | nil => exact ⟨[], by rw [String.intercalate_singleton, List.append_nil]⟩
      | cons third others =>
        rw [String.intercalate_cons_cons, String.toList_append, String.toList_append,
          List.append_assoc]
        exact ⟨_, rfl⟩
    have hcut := hcuts r
    rw [hmore, List.append_assoc] at hcut
    have htext : (String.intercalate "." (first :: second :: others)).toList ++ '(' :: r =
        first.toList ++ '.' :: (second.toList ++ (more ++ '(' :: r)) := by
      rw [String.intercalate_cons_cons, String.toList_append, String.toList_append, hmore]
      simp
    rw [htext]
    apply Cuts.token (longest_ident hspells rfl _)
    exact .token (longest_dot hspells' _) hcut

theorem cuts_target {s : CallSpec} (h : ∀ name ∈ s.names, IsIdent name) :
    ∃ ts, Path ts s.names ∧ ∀ r, Cuts (s.target.toList ++ '(' :: r) ts ('(' :: r) := by
  obtain ⟨ts, hts, hcuts⟩ := cuts_names h
  exact ⟨_, .names s.first hts, hcuts⟩

end DesignProcess.CallSpec
