/-!
Values that a TOML text can hold. Of a date or time only its presence is kept, and integers may
have any size. Of a float that is too large for its type no more is known.
-/

namespace DesignProcess.Toml

inductive Value
  | string (s : String)
  | integer (n : Int)
  | float (x : Float)
  | overflow
  | boolean (b : Bool)
  | datetime
  | array (items : List Value)
  | table (entries : List (String × Value))
deriving Repr

end DesignProcess.Toml
