import DesignProcess.Decimal.Layout

namespace DesignProcess

inductive Scalar
  | boolean (value : Bool)
  | integer (value : Int64)
  | float (value : Float)
  | string (value : String)
deriving DecidableEq, Repr

namespace Scalar

def kindName : Scalar → String
  | boolean _ => "boolean"
  | integer _ => "integer"
  | float _ => "float"
  | string _ => "string"

/-- Strings stand between single quotes, with nothing in them escaped. -/
def text : Scalar → List Char
  | boolean true => "true".toList
  | boolean false => "false".toList
  | integer n => Decimal.signed n.toInt
  | float x => Decimal.literal.text x
  | string s => '\'' :: (s.toList ++ ['\''])

@[simp] theorem text_string (s : String) : (string s).text = '\'' :: (s.toList ++ ['\'']) := rfl

def render (s : Scalar) : String := String.ofList s.text

def toFloat? : Scalar → Option Float
  | integer n => some (Float.ofInt n.toInt)
  | float x => some x
  | _ => none

/-- Equality that treats floats as numbers: zeros are equal, and no NaN is. -/
def same : Scalar → Scalar → Bool
  | float x, float y => x == y
  | a, b => a = b

end Scalar

end DesignProcess
