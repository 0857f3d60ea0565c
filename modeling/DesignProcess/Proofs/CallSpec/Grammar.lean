import DesignProcess.Proofs.CallSpec.Lexing

namespace DesignProcess.CallSpec

inductive Numeral (negative : Bool) : Token → Scalar → Prop
  | integer {digits : String} {n : Int64}
      (h : n.toInt = (if negative then -1 else 1) * (Decimal.natOfDigits digits.toList : Int)) :
      Numeral negative (.integer digits) (.integer n)
  | float {digits : String} {m : Decimal.Numeral}
      (hread : Decimal.Numeral.ofText? digits.toList = some m)
      (hfinite : m.toFloat.isFinite = true) :
      Numeral negative (.float digits) (.float (if negative then -m.toFloat else m.toFloat))

inductive Literal : List Token → Scalar → Prop
  | unsigned {t : Token} {v : Scalar} (h : Numeral false t v) : Literal [t] v
  | plus {t : Token} {v : Scalar} (h : Numeral false t v) : Literal [.plus, t] v
  | minus {t : Token} {v : Scalar} (h : Numeral true t v) : Literal [.minus, t] v
  | str (content : String) : Literal [.str content] (.string content)
  | boolean (b : Bool) : Literal [.boolean b] (.boolean b)

inductive Argument : List Token → String × Scalar → Prop
  | keyword (name : String) {ts : List Token} {v : Scalar} (h : Literal ts v) :
      Argument (.ident name :: .equals :: ts) (name, v)

inductive Arguments : List Token → List (String × Scalar) → Prop
  | last {ts : List Token} {a : String × Scalar} (h : Argument ts a) : Arguments ts [a]
  | comma {ts : List Token} {a : String × Scalar} (h : Argument ts a) :
      Arguments (ts ++ [.comma]) [a]
  | more {ts us : List Token} {a : String × Scalar} {arguments : List (String × Scalar)}
      (h : Argument ts a) (hs : Arguments us arguments) :
      Arguments (ts ++ .comma :: us) (a :: arguments)

inductive OtherNames : List Token → List String → Prop
  | none : OtherNames [] []
  | dot (name : String) {ts : List Token} {names : List String} (h : OtherNames ts names) :
      OtherNames (.dot :: .ident name :: ts) (name :: names)

inductive Path : List Token → List String → Prop
  | names (first : String) {ts : List Token} {others : List String} (h : OtherNames ts others) :
      Path (.ident first :: ts) (first :: others)

inductive Call : List Token → List String → List (String × Scalar) → Prop
  | bare {ts : List Token} {names : List String} (h : Path ts names) : Call ts names []
  | empty {ts : List Token} {names : List String} (h : Path ts names) :
      Call (ts ++ [.lparen, .rparen]) names []
  | applied {ts us : List Token} {names : List String} {arguments : List (String × Scalar)}
      (h : Path ts names) (hs : Arguments us arguments)
      (hdistinct : (arguments.map (·.1)).Nodup) :
      Call (ts ++ .lparen :: (us ++ [.rparen])) names arguments

def words (ts : List Placed) : List Token := ts.map (·.token)

@[simp]
theorem words_nil : words [] = [] := rfl

@[simp]
theorem words_cons (t : Placed) (ts : List Placed) : words (t :: ts) = t.token :: words ts := rfl

@[simp]
theorem words_append (ts us : List Placed) : words (ts ++ us) = words ts ++ words us :=
  List.map_append

theorem words_eq_nil_iff {ts : List Placed} : words ts = [] ↔ ts = [] := List.map_eq_nil_iff

theorem words_eq_cons_iff {ts : List Placed} {w : Token} {ws : List Token} :
    words ts = w :: ws ↔ ∃ offset us, ts = ⟨offset, w⟩ :: us ∧ words us = ws := by
  constructor
  · intro h
    obtain ⟨⟨offset, t⟩, us, rfl, rfl, hus⟩ := List.map_eq_cons_iff.mp h
    exact ⟨offset, us, rfl, hus⟩
  · rintro ⟨offset, us, rfl, rfl⟩
    rfl

theorem words_eq_append_iff {ts : List Placed} {ws vs : List Token} :
    words ts = ws ++ vs ↔ ∃ us rest, ts = us ++ rest ∧ words us = ws ∧ words rest = vs :=
  List.map_eq_append_iff

theorem int64_eq_some_iff {i : Int} {n : Int64} : Decimal.int64? i = some n ↔ n.toInt = i := by
  unfold Decimal.int64?
  constructor
  · intro h
    split at h
    · rename_i hrange
      cases h
      exact Int64.toInt_ofInt_of_le hrange.1 (Int.lt_of_le_sub_one hrange.2)
    · cases h
  · rintro rfl
    rw [if_pos ⟨Int64.minValue_le_toInt n, Int64.toInt_le n⟩, Int64.ofInt_toInt]

theorem integer_eq_some_iff {negative : Bool} {digits : String} {v : Scalar} :
    integer? negative digits = some v ↔ Numeral negative (.integer digits) v := by
  have hsigned : ∀ n : Nat, (if negative = true then -(n : Int) else n) =
      (if negative then -1 else 1) * (n : Int) := by
    intro n
    cases negative <;> simp
  simp only [integer?, Option.map_eq_some_iff, int64_eq_some_iff]
  constructor
  · rintro ⟨n, hn, rfl⟩
    exact .integer (hn.trans (hsigned _))
  · intro h
    cases h with
    | integer hn => exact ⟨_, hn.trans (hsigned _).symm, rfl⟩

theorem float_eq_some_iff {negative : Bool} {digits : String} {v : Scalar} :
    float? negative digits = some v ↔ Numeral negative (.float digits) v := by
  unfold float?
  constructor
  · intro h
    split at h
    · cases h
    · rename_i m hread
      simp only at h
      split at h
      · rename_i hfinite
        cases h
        exact .float hread hfinite
      · cases h
  · intro h
    cases h with
    | float hread hfinite => simp only [hread, hfinite, if_true]

theorem number_eq_ok_iff {stop start : Nat} {negative : Bool} {ts rest : List Placed}
    {v : Scalar} :
    number stop start negative ts = .ok (v, rest) ↔
      ∃ p, ts = p :: rest ∧ Numeral negative p.token v := by
  constructor
  · intro h
    unfold number at h
    split at h
    · split at h
      · rename_i hvalue
        cases h
        exact ⟨_, rfl, integer_eq_some_iff.mp hvalue⟩
      · cases h
    · split at h
      · rename_i hvalue
        cases h
        exact ⟨_, rfl, float_eq_some_iff.mp hvalue⟩
      · cases h
    · cases h
  · rintro ⟨⟨offset, t⟩, rfl, h⟩
    cases t with
    | integer digits => simp only [number, integer_eq_some_iff.mpr h]
    | float digits => simp only [number, float_eq_some_iff.mpr h]
    | _ => cases h

theorem literal_unsigned {stop : Nat} {p : Placed} {v : Scalar} (h : Numeral false p.token v)
    (rest : List Placed) : literal stop (p :: rest) = .ok (v, rest) := by
  have hnumber : number stop p.offset false (p :: rest) = .ok (v, rest) :=
    number_eq_ok_iff.mpr ⟨p, rfl, h⟩
  obtain ⟨offset, t⟩ := p
  cases t with
  | integer | float => exact hnumber
  | _ => cases h

theorem literal_eq_ok_iff {stop : Nat} {ts rest : List Placed} {v : Scalar} :
    literal stop ts = .ok (v, rest) ↔ ∃ read, ts = read ++ rest ∧ Literal (words read) v := by
  constructor
  · intro h
    unfold literal at h
    split at h
    · obtain ⟨p, rfl, hp⟩ := number_eq_ok_iff.mp h
      exact ⟨[_, p], rfl, .minus hp⟩
    · obtain ⟨p, rfl, hp⟩ := number_eq_ok_iff.mp h
      exact ⟨[_, p], rfl, .plus hp⟩
    · cases h
      exact ⟨[_], rfl, .str _⟩
    · cases h
      exact ⟨[_], rfl, .boolean _⟩
    · obtain ⟨p, heq, hp⟩ := number_eq_ok_iff.mp h
      exact ⟨[p], heq, .unsigned hp⟩
    · obtain ⟨p, heq, hp⟩ := number_eq_ok_iff.mp h
      exact ⟨[p], heq, .unsigned hp⟩
    · cases h
    · cases h
  · rintro ⟨read, rfl, h⟩
    generalize hw : words read = ws at h
    cases h with
    | @unsigned t _ hv =>
      obtain ⟨offset, us, rfl, hus⟩ := words_eq_cons_iff.mp hw
      rw [words_eq_nil_iff.mp hus]
      exact literal_unsigned (p := ⟨offset, t⟩) hv rest
    | plus hv =>
      obtain ⟨_, us, rfl, hus⟩ := words_eq_cons_iff.mp hw
      obtain ⟨_, vs, rfl, hvs⟩ := words_eq_cons_iff.mp hus
      rw [words_eq_nil_iff.mp hvs]
      exact number_eq_ok_iff.mpr ⟨_, rfl, hv⟩
    | minus hv =>
      obtain ⟨_, us, rfl, hus⟩ := words_eq_cons_iff.mp hw
      obtain ⟨_, vs, rfl, hvs⟩ := words_eq_cons_iff.mp hus
      rw [words_eq_nil_iff.mp hvs]
      exact number_eq_ok_iff.mpr ⟨_, rfl, hv⟩
    | str | boolean =>
      obtain ⟨_, us, rfl, hus⟩ := words_eq_cons_iff.mp hw
      rw [words_eq_nil_iff.mp hus]
      rfl

theorem argument_eq_ok_iff {stop : Nat} {ts rest : List Placed} {a : String × Scalar} :
    argument stop ts = .ok (a, rest) ↔ ∃ read, ts = read ++ rest ∧ Argument (words read) a := by
  constructor
  · intro h
    unfold argument at h
    split at h
    · obtain ⟨⟨v, after⟩, hliteral, heq⟩ := Except.map_eq_ok_iff.mp h
      cases heq
      obtain ⟨read, rfl, hread⟩ := literal_eq_ok_iff.mp hliteral
      exact ⟨_ :: _ :: read, rfl, .keyword _ hread⟩
    · cases h
    · split at h <;> cases h
  · rintro ⟨read, rfl, h⟩
    generalize hw : words read = ws at h
    cases h with
    | keyword name hv =>
      obtain ⟨_, us, rfl, hus⟩ := words_eq_cons_iff.mp hw
      obtain ⟨_, vs, rfl, hvs⟩ := words_eq_cons_iff.mp hus
      rw [← hvs] at hv
      simp only [List.cons_append, argument, literal_eq_ok_iff.mpr ⟨vs, rfl, hv⟩]
      rfl

end DesignProcess.CallSpec
