import DesignProcess.Proofs.CallSpec.ArgumentList

/-!
The shape of call specifications: their grammar with neither the ranges of numbers nor the
uniqueness of argument names. A text has it exactly if a reader that takes one token after the
other, and knows only the stage it is in, ends where it may stop.
-/

namespace DesignProcess.CallSpec

inductive NumberToken : Token → Prop
  | integer (digits : String) : NumberToken (.integer digits)
  | float (digits : String) : NumberToken (.float digits)

inductive LiteralShape : List Token → Prop
  | unsigned {t : Token} (h : NumberToken t) : LiteralShape [t]
  | plus {t : Token} (h : NumberToken t) : LiteralShape [.plus, t]
  | minus {t : Token} (h : NumberToken t) : LiteralShape [.minus, t]
  | str (content : String) : LiteralShape [.str content]
  | boolean (b : Bool) : LiteralShape [.boolean b]

inductive ArgumentShape : List Token → Prop
  | keyword (name : String) {ts : List Token} (h : LiteralShape ts) :
      ArgumentShape (.ident name :: .equals :: ts)

inductive ArgumentsShape : List Token → Prop
  | last {ts : List Token} (h : ArgumentShape ts) : ArgumentsShape ts
  | comma {ts : List Token} (h : ArgumentShape ts) : ArgumentsShape (ts ++ [.comma])
  | more {ts us : List Token} (h : ArgumentShape ts) (hs : ArgumentsShape us) :
      ArgumentsShape (ts ++ .comma :: us)

inductive Sentence : List Token → Prop
  | bare {ts : List Token} {names : List String} (h : Path ts names) : Sentence ts
  | empty {ts : List Token} {names : List String} (h : Path ts names) :
      Sentence (ts ++ [.lparen, .rparen])
  | applied {ts us : List Token} {names : List String} (h : Path ts names)
      (hs : ArgumentsShape us) : Sentence (ts ++ .lparen :: (us ++ [.rparen]))

theorem Numeral.numberToken {negative : Bool} {t : Token} {v : Scalar}
    (h : Numeral negative t v) : NumberToken t := by
  cases h with
  | integer => exact .integer _
  | float => exact .float _

theorem Literal.shape {ts : List Token} {v : Scalar} (h : Literal ts v) : LiteralShape ts := by
  cases h with
  | unsigned h => exact .unsigned h.numberToken
  | plus h => exact .plus h.numberToken
  | minus h => exact .minus h.numberToken
  | str content => exact .str content
  | boolean b => exact .boolean b

theorem Argument.shape {ts : List Token} {a : String × Scalar} (h : Argument ts a) :
    ArgumentShape ts := by
  cases h with
  | keyword name h => exact .keyword name h.shape

theorem Arguments.shape {ts : List Token} {arguments : List (String × Scalar)}
    (h : Arguments ts arguments) : ArgumentsShape ts := by
  induction h with
  | last h => exact .last h.shape
  | comma h => exact .comma h.shape
  | more h _ ih => exact .more h.shape ih

/-- Where a reader is, named for what it has just taken or for what it has to take. -/
inductive Stage
  | target
  | name
  | nameAfterDot
  | argument
  | equals
  | literal
  | numberAfterSign
  | separator
  | closed
deriving DecidableEq, Repr

namespace Stage

def next? : Stage → Token → Option Stage
  | target, .ident _ => some name
  | name, .dot => some nameAfterDot
  | name, .lparen => some argument
  | nameAfterDot, .ident _ => some name
  | argument, .ident _ => some equals
  | argument, .rparen => some closed
  | equals, .equals => some literal
  | literal, .plus => some numberAfterSign
  | literal, .minus => some numberAfterSign
  | literal, .str _ => some separator
  | literal, .boolean _ => some separator
  | literal, .integer _ => some separator
  | literal, .float _ => some separator
  | numberAfterSign, .integer _ => some separator
  | numberAfterSign, .float _ => some separator
  | separator, .comma => some argument
  | separator, .rparen => some closed
  | _, _ => none

def after? (s : Stage) (ts : List Token) : Option Stage := ts.foldlM next? s

def mayStop : Stage → Bool
  | name => true
  | closed => true
  | _ => false

@[simp]
theorem after?_nil (s : Stage) : s.after? [] = some s := rfl

@[simp]
theorem after?_cons (s : Stage) (t : Token) (ts : List Token) :
    s.after? (t :: ts) = (s.next? t).bind (·.after? ts) := rfl

@[simp]
theorem after?_append (s : Stage) (ts us : List Token) :
    s.after? (ts ++ us) = (s.after? ts).bind (·.after? us) :=
  List.foldlM_append

theorem after?_otherNames {ts : List Token} {names : List String} (h : OtherNames ts names) :
    name.after? ts = some name := by
  induction h with
  | none => rfl
  | dot _ _ ih => exact ih

theorem after?_path {ts : List Token} {names : List String} (h : Path ts names) :
    target.after? ts = some name := by
  cases h with
  | names _ h => exact after?_otherNames h

theorem after?_number {t : Token} (h : NumberToken t) :
    numberAfterSign.after? [t] = some separator := by
  cases h <;> rfl

theorem after?_literal {ts : List Token} (h : LiteralShape ts) :
    literal.after? ts = some separator := by
  cases h with
  | unsigned h => cases h <;> rfl
  | plus h | minus h => exact after?_number h
  | str | boolean => rfl

theorem after?_argument {ts : List Token} (h : ArgumentShape ts) :
    argument.after? ts = some separator := by
  cases h with
  | keyword _ h => exact after?_literal h

theorem after?_arguments {ts : List Token} (h : ArgumentsShape ts) :
    argument.after? (ts ++ [.rparen]) = some closed := by
  induction h with
  | last h =>
    rw [after?_append, after?_argument h]
    rfl
  | comma h =>
    rw [List.append_assoc, after?_append, after?_argument h]
    rfl
  | more h _ ih =>
    rw [List.append_assoc, after?_append, after?_argument h]
    exact ih

theorem after?_sentence {ts : List Token} (h : Sentence ts) :
    ∃ s, target.after? ts = some s ∧ s.mayStop = true := by
  cases h with
  | bare h => exact ⟨name, after?_path h, rfl⟩
  | empty h =>
    refine ⟨closed, ?_, rfl⟩
    rw [after?_append, after?_path h]
    rfl
  | applied h hs =>
    refine ⟨closed, ?_, rfl⟩
    rw [after?_append, after?_path h]
    exact after?_arguments hs

def Closes (ts : List Token) : Prop :=
  ts = [.rparen] ∨ ∃ us, ts = us ++ [.rparen] ∧ ArgumentsShape us

def Continues (ts : List Token) : Prop := ts = [.rparen] ∨ ∃ us, ts = .comma :: us ∧ Closes us

def Completes : Stage → List Token → Prop
  | target, ts => Sentence ts
  | name, ts => ∃ us vs names, ts = us ++ vs ∧ OtherNames us names ∧
      (vs = [] ∨ ∃ ws, vs = .lparen :: ws ∧ Closes ws)
  | nameAfterDot, ts => ∃ n us vs names, ts = .ident n :: (us ++ vs) ∧ OtherNames us names ∧
      (vs = [] ∨ ∃ ws, vs = .lparen :: ws ∧ Closes ws)
  | argument, ts => Closes ts
  | equals, ts => ∃ us vs, ts = .equals :: (us ++ vs) ∧ LiteralShape us ∧ Continues vs
  | literal, ts => ∃ us vs, ts = us ++ vs ∧ LiteralShape us ∧ Continues vs
  | numberAfterSign, ts => ∃ t vs, ts = t :: vs ∧ NumberToken t ∧ Continues vs
  | separator, ts => Continues ts
  | closed, ts => ts = []

theorem closes_keyword {us vs : List Token} (n : String) (h : LiteralShape us)
    (hs : Continues vs) : Closes (.ident n :: .equals :: (us ++ vs)) := by
  have hargument : ArgumentShape (.ident n :: .equals :: us) := .keyword n h
  rcases hs with rfl | ⟨ws, rfl, rfl | ⟨xs, rfl, harguments⟩⟩
  · exact .inr ⟨_, rfl, .last hargument⟩
  · exact .inr ⟨_, by simp, .comma hargument⟩
  · exact .inr ⟨_, by simp, .more hargument harguments⟩

theorem sentence_of_names {us vs : List Token} {n : String} {names : List String}
    (h : OtherNames us names) (hs : vs = [] ∨ ∃ ws, vs = .lparen :: ws ∧ Closes ws) :
    Sentence (.ident n :: (us ++ vs)) := by
  have hpath : Path (.ident n :: us) (n :: names) := .names n h
  rcases hs with rfl | ⟨_, rfl, rfl | ⟨xs, rfl, harguments⟩⟩
  · rw [List.append_nil]
    exact .bare hpath
  · exact .empty hpath
  · exact .applied hpath harguments

theorem Completes.cons {s s' : Stage} {t : Token} {ts : List Token} (hnext : s.next? t = some s')
    (h : s'.Completes ts) : s.Completes (t :: ts) := by
  cases s with
  | target =>
    cases t with
    | ident n =>
      cases hnext
      obtain ⟨us, vs, names, rfl, hothers, hlist⟩ := h
      exact sentence_of_names hothers hlist
    | _ => cases hnext
  | name =>
    cases t with
    | dot =>
      cases hnext
      obtain ⟨n, us, vs, names, rfl, hothers, hlist⟩ := h
      exact ⟨_, vs, _, rfl, .dot n hothers, hlist⟩
    | lparen =>
      cases hnext
      exact ⟨[], _, _, rfl, .none, .inr ⟨_, rfl, h⟩⟩
    | _ => cases hnext
  | nameAfterDot =>
    cases t with
    | ident n =>
      cases hnext
      obtain ⟨us, vs, names, rfl, hothers, hlist⟩ := h
      exact ⟨n, us, vs, names, rfl, hothers, hlist⟩
    | _ => cases hnext
  | argument =>
    cases t with
    | ident n =>
      cases hnext
      obtain ⟨us, vs, rfl, hliteral, hrest⟩ := h
      exact closes_keyword n hliteral hrest
    | rparen =>
      cases hnext
      obtain rfl : ts = [] := h
      exact .inl rfl
    | _ => cases hnext
  | equals =>
    cases t with
    | equals =>
      cases hnext
      obtain ⟨us, vs, rfl, hliteral, hrest⟩ := h
      exact ⟨us, vs, rfl, hliteral, hrest⟩
    | _ => cases hnext
  | literal =>
    cases t with
    | plus =>
      cases hnext
      obtain ⟨t, vs, rfl, hnumber, hrest⟩ := h
      exact ⟨_, vs, rfl, .plus hnumber, hrest⟩
    | minus =>
      cases hnext
      obtain ⟨t, vs, rfl, hnumber, hrest⟩ := h
      exact ⟨_, vs, rfl, .minus hnumber, hrest⟩
    | str content =>
      cases hnext
      exact ⟨[_], ts, rfl, .str content, h⟩
    | boolean b =>
      cases hnext
      exact ⟨[_], ts, rfl, .boolean b, h⟩
    | integer digits =>
      cases hnext
      exact ⟨[_], ts, rfl, .unsigned (.integer digits), h⟩
    | float digits =>
      cases hnext
      exact ⟨[_], ts, rfl, .unsigned (.float digits), h⟩
    | _ => cases hnext
  | numberAfterSign =>
    cases t with
    | integer digits =>
      cases hnext
      exact ⟨_, ts, rfl, .integer digits, h⟩
    | float digits =>
      cases hnext
      exact ⟨_, ts, rfl, .float digits, h⟩
    | _ => cases hnext
  | separator =>
    cases t with
    | comma =>
      cases hnext
      exact .inr ⟨ts, rfl, h⟩
    | rparen =>
      cases hnext
      obtain rfl : ts = [] := h
      exact .inl rfl
    | _ => cases hnext
  | closed => cases t <;> cases hnext

theorem completes_of_after? {s s' : Stage} {ts : List Token} (h : s.after? ts = some s')
    (hstop : s'.mayStop = true) : s.Completes ts := by
  induction ts generalizing s with
  | nil =>
    obtain rfl : s = s' := Option.some.inj h
    cases s with
    | name => exact ⟨[], [], [], rfl, .none, .inl rfl⟩
    | closed => rfl
    | _ => cases hstop
  | cons t ts ih =>
    obtain ⟨middle, hnext, hrest⟩ := Option.bind_eq_some_iff.mp h
    exact .cons hnext (ih hrest)

theorem sentence_iff {ts : List Token} :
    Sentence ts ↔ ∃ s, target.after? ts = some s ∧ s.mayStop = true := by
  constructor
  · exact after?_sentence
  · rintro ⟨s, h, hstop⟩
    exact completes_of_after? h hstop

def completion : Stage → List Token
  | target => [.ident "x"]
  | name => []
  | nameAfterDot => [.ident "x"]
  | argument => [.rparen]
  | equals => [.equals, .boolean true, .rparen]
  | literal => [.boolean true, .rparen]
  | numberAfterSign => [.integer "0", .rparen]
  | separator => [.rparen]
  | closed => []

theorem after?_completion (s : Stage) :
    ∃ s', s.after? s.completion = some s' ∧ s'.mayStop = true := by
  cases s with
  | target | name | nameAfterDot => exact ⟨name, rfl, rfl⟩
  | _ => exact ⟨closed, rfl, rfl⟩

end Stage

def Viable (ts : List Token) : Prop := ∃ us, Sentence (ts ++ us)

theorem viable_iff {ts : List Token} : Viable ts ↔ ∃ s, Stage.target.after? ts = some s := by
  constructor
  · rintro ⟨us, h⟩
    obtain ⟨s, hs, -⟩ := Stage.sentence_iff.mp h
    rw [Stage.after?_append] at hs
    obtain ⟨middle, hmiddle, -⟩ := Option.bind_eq_some_iff.mp hs
    exact ⟨middle, hmiddle⟩
  · rintro ⟨s, hs⟩
    obtain ⟨s', hs', hstop⟩ := s.after?_completion
    refine ⟨s.completion, Stage.sentence_iff.mpr ⟨s', ?_, hstop⟩⟩
    rw [Stage.after?_append, hs]
    exact hs'

end DesignProcess.CallSpec
