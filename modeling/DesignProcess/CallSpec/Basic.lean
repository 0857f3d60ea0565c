import DesignProcess.Scalar

namespace DesignProcess

structure CallSpec where
  first : String
  others : List String
  arguments : List (String × Scalar)
deriving DecidableEq, Repr

namespace CallSpec

def names (s : CallSpec) : List String := s.first :: s.others

def target (s : CallSpec) : String := String.intercalate "." s.names

def kind (s : CallSpec) : String := s.others.getLastD s.first

def argument? (s : CallSpec) (name : String) : Option Scalar := s.arguments.lookup name

def renderArgument (a : String × Scalar) : String := a.1 ++ "=" ++ a.2.render

def renderArguments (arguments : List (String × Scalar)) : String :=
  "(" ++ String.intercalate ", " (arguments.map renderArgument) ++ ")"

def render (s : CallSpec) : String := s.target ++ renderArguments s.arguments

def sameArguments (xs ys : List (String × Scalar)) : Bool :=
  xs.length == ys.length && (xs.zip ys).all fun (x, y) => x.1 == y.1 && x.2.same y.2

def same (s t : CallSpec) : Bool :=
  s.target == t.target && sameArguments s.arguments t.arguments

end CallSpec

end DesignProcess
