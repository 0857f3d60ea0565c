import DesignProcess.CallSpec.Token

namespace DesignProcess.CallSpec

inductive Expectation
  | target
  | nameAfterDot
  | argumentName
  | equals
  | literal
  | numberAfterSign
  | commaOrParen
  | stop
deriving DecidableEq, Repr

def Expectation.describe : Expectation → String
  | target => "a solver or driver name"
  | nameAfterDot => "an identifier after '.'"
  | argumentName => "a keyword argument name"
  | equals => "'=' after keyword argument name"
  | literal => "a literal value"
  | numberAfterSign => "a number after sign"
  | commaOrParen => "',' or ')'"
  | stop => "end of specification"

inductive Fault
  | unreadable (text : String)
  | unexpected (expected : Expectation) (found : Option Token)
  | positional
  | duplicate (name : String)
  | notLiteral (name : String)
  | outOfRange (digits : String)
deriving DecidableEq, Repr

def describeFound (found : Option Token) : String :=
  (found.map Token.describe).getD "end of input"

def Fault.message : Fault → String
  | unreadable text => s!"unexpected character sequence '{text}'"
  | unexpected expected found =>
    "expected " ++ expected.describe ++ ", found " ++ describeFound found
  | positional => "positional arguments are not supported; use name=value"
  | duplicate name => s!"duplicate keyword argument '{name}'"
  | notLiteral name =>
    s!"'{name}' is not a literal; only numbers, quoted strings and booleans are allowed"
  | outOfRange digits => s!"number '{digits}' is out of range"

structure Error where
  offset : Nat
  fault : Fault
deriving DecidableEq, Repr

def Error.message (e : Error) : String := e.fault.message

def Error.render (e : Error) : String := e.message ++ s!" (at offset {e.offset})"

end DesignProcess.CallSpec
