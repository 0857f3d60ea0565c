import DesignProcess.CallSpec.Basic
import DesignProcess.CallSpec.Error
import DesignProcess.Decimal.Numeral
import DesignProcess.Text.Bytes

/-!
Reading call specifications. The whole text is cut into tokens first, so a place that begins no
token is reported before any fault of the grammar

    call     := name { "." name } [ "(" [ argument { "," argument } [ "," ] ] ")" ]
    argument := name "=" literal
-/

namespace DesignProcess.CallSpec

def tokens (offset : Nat) (cs : List Char) : Except Error (List Placed) :=
  match cs with
  | [] => .ok []
  | c :: r =>
    if isGap c then tokens (offset + 1) r
    else
      match _h : Token.next? (c :: r) with
      | none => .error ⟨offset, .unreadable (String.ofList (Token.unreadable (c :: r)))⟩
      | some (t, rest) =>
        let passed := Text.byteLength (c :: r) - Text.byteLength rest
        (tokens (offset + passed) rest).map (⟨offset, t⟩ :: ·)
termination_by cs.length
decreasing_by
  · simp
  · exact Token.length_next_lt _h

def position (stop : Nat) (ts : List Placed) : Nat := (ts.head?.map (·.offset)).getD stop

def fail {α : Type} (stop : Nat) (ts : List Placed) (fault : Fault) : Except Error α :=
  .error ⟨position stop ts, fault⟩

def unexpected {α : Type} (stop : Nat) (ts : List Placed) (e : Expectation) : Except Error α :=
  fail stop ts (.unexpected e (ts.head?.map (·.token)))

abbrev Part (α : Type) := Except Error (α × List Placed)

def otherNames (stop : Nat) : List Placed → Part (List String)
  | ⟨_, .dot⟩ :: ⟨_, .ident name⟩ :: ts =>
    (otherNames stop ts).map fun (names, rest) => (name :: names, rest)
  | ⟨_, .dot⟩ :: ts => unexpected stop ts .nameAfterDot
  | ts => .ok ([], ts)

def path (stop : Nat) : List Placed → Part (String × List String)
  | ⟨_, .ident name⟩ :: ts => (otherNames stop ts).map fun (names, rest) => ((name, names), rest)
  | ts => unexpected stop ts .target

def integer? (negative : Bool) (digits : String) : Option Scalar :=
  let n := Decimal.natOfDigits digits.toList
  (Decimal.int64? (if negative then -(n : Int) else n)).map .integer

def float? (negative : Bool) (digits : String) : Option Scalar :=
  match Decimal.Numeral.ofText? digits.toList with
  | none => none
  | some n =>
    let x := n.toFloat
    if x.isFinite then some (.float (if negative then -x else x)) else none

def number (stop start : Nat) (negative : Bool) : List Placed → Part Scalar
  | ⟨_, .integer digits⟩ :: ts =>
    match integer? negative digits with
    | some n => .ok (n, ts)
    | none => .error ⟨start, .outOfRange digits⟩
  | ⟨_, .float digits⟩ :: ts =>
    match float? negative digits with
    | some x => .ok (x, ts)
    | none => .error ⟨start, .outOfRange digits⟩
  | ts => unexpected stop ts .numberAfterSign

def literal (stop : Nat) : List Placed → Part Scalar
  | ⟨start, .minus⟩ :: ts => number stop start true ts
  | ⟨start, .plus⟩ :: ts => number stop start false ts
  | ⟨_, .str content⟩ :: ts => .ok (.string content, ts)
  | ⟨_, .boolean b⟩ :: ts => .ok (.boolean b, ts)
  | ⟨start, .integer digits⟩ :: ts => number stop start false (⟨start, .integer digits⟩ :: ts)
  | ⟨start, .float digits⟩ :: ts => number stop start false (⟨start, .float digits⟩ :: ts)
  | ⟨start, .ident name⟩ :: _ => .error ⟨start, .notLiteral name⟩
  | ts => unexpected stop ts .literal

def isLiteralToken : Token → Bool
  | .boolean _ | .integer _ | .float _ | .str _ => true
  | _ => false

def argument (stop : Nat) : List Placed → Part (String × Scalar)
  | ⟨_, .ident name⟩ :: ⟨_, .equals⟩ :: ts =>
    (literal stop ts).map fun (value, rest) => ((name, value), rest)
  | ⟨_, .ident _⟩ :: ts => unexpected stop ts .equals
  | ts =>
    if ts.head?.any (isLiteralToken ·.token) then fail stop ts .positional
    else unexpected stop ts .argumentName

theorem length_number_lt {stop start : Nat} {negative : Bool} {ts rest : List Placed} {v : Scalar}
    (h : number stop start negative ts = .ok (v, rest)) : rest.length < ts.length := by
  unfold number at h
  split at h
  · split at h
    · simp only [Except.ok.injEq, Prod.mk.injEq] at h
      simp [h.2]
    · simp at h
  · split at h
    · simp only [Except.ok.injEq, Prod.mk.injEq] at h
      simp [h.2]
    · simp at h
  · simp [unexpected, fail] at h

theorem length_literal_lt {stop : Nat} {ts rest : List Placed} {v : Scalar}
    (h : literal stop ts = .ok (v, rest)) : rest.length < ts.length := by
  unfold literal at h
  split at h
  · have := length_number_lt h
    simp only [List.length_cons]
    omega
  · have := length_number_lt h
    simp only [List.length_cons]
    omega
  · simp only [Except.ok.injEq, Prod.mk.injEq] at h
    simp [h.2]
  · simp only [Except.ok.injEq, Prod.mk.injEq] at h
    simp [h.2]
  · have := length_number_lt h
    simpa using this
  · have := length_number_lt h
    simpa using this
  · simp at h
  · simp [unexpected, fail] at h

theorem length_argument_lt {stop : Nat} {ts rest : List Placed} {a : String × Scalar}
    (h : argument stop ts = .ok (a, rest)) : rest.length < ts.length := by
  unfold argument at h
  split at h
  · rename_i ts
    cases hl : literal stop ts with
    | error e => simp [hl, Except.map] at h
    | ok p =>
      obtain ⟨v, r⟩ := p
      have := length_literal_lt hl
      simp only [hl, Except.map, Except.ok.injEq, Prod.mk.injEq] at h
      rw [← h.2]
      simp only [List.length_cons]
      omega
  · simp [unexpected, fail] at h
  · split at h <;> simp [unexpected, fail] at h

def argumentsFrom (stop : Nat) (found : List (String × Scalar)) (ts : List Placed) :
    Part (List (String × Scalar)) :=
  if ts.head?.map (·.token) = some .rparen then .ok (found, ts.tail)
  else
    match _h : argument stop ts with
    | .error e => .error e
    | .ok (a, rest) =>
      if found.any (·.1 == a.1) then fail stop rest (.duplicate a.1)
      else
        match rest with
        | ⟨_, .comma⟩ :: more => argumentsFrom stop (found ++ [a]) more
        | ⟨_, .rparen⟩ :: more => .ok (found ++ [a], more)
        | _ => unexpected stop rest .commaOrParen
termination_by ts.length
decreasing_by
  have := length_argument_lt _h
  simp only [List.length_cons] at this
  omega

def argumentList (stop : Nat) : List Placed → Part (List (String × Scalar))
  | ⟨_, .lparen⟩ :: ts => argumentsFrom stop [] ts
  | ts => .ok ([], ts)

def call (stop : Nat) (ts : List Placed) : Except Error CallSpec :=
  match path stop ts with
  | .error e => .error e
  | .ok ((first, others), rest) =>
    match argumentList stop rest with
    | .error e => .error e
    | .ok (found, []) => .ok ⟨first, others, found⟩
    | .ok (_, extra) => unexpected stop extra .stop

def ofText (s : String) : Except Error CallSpec :=
  match tokens 0 s.toList with
  | .error e => .error e
  | .ok ts => call (Text.byteLength s.toList) ts

end DesignProcess.CallSpec
