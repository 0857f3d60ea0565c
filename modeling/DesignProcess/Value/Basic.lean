import DesignProcess.Scalar

namespace DesignProcess

inductive Value
  | null
  | scalar (s : Scalar)
  | list (items : List Value)
  | table (entries : List (String × Value))
deriving Repr

namespace Value

def kindName : Value → String
  | null => "null"
  | scalar s => s.kindName
  | list _ => "list"
  | table _ => "table"

def isTable : Value → Bool
  | table _ => true
  | _ => false

end Value

end DesignProcess
