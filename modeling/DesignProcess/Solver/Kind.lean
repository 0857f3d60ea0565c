namespace DesignProcess

inductive SolverSlot
  | nonlinear
  | linear
deriving DecidableEq, Repr

def SolverSlot.name : SolverSlot → String
  | nonlinear => "nonlinear"
  | linear => "linear"

inductive SolverKind
  | broyden
  | newton
  | nonlinearBlockGS
  | nonlinearBlockJac
  | nonlinearRunOnce
  | direct
  | linearBlockGS
  | linearBlockJac
  | linearRunOnce
  | linearUserDefined
  | petscKrylov
  | scipyKrylov
deriving DecidableEq, Repr

namespace SolverKind

def name : SolverKind → String
  | broyden => "BroydenSolver"
  | newton => "NewtonSolver"
  | nonlinearBlockGS => "NonlinearBlockGS"
  | nonlinearBlockJac => "NonlinearBlockJac"
  | nonlinearRunOnce => "NonlinearRunOnce"
  | direct => "DirectSolver"
  | linearBlockGS => "LinearBlockGS"
  | linearBlockJac => "LinearBlockJac"
  | linearRunOnce => "LinearRunOnce"
  | linearUserDefined => "LinearUserDefined"
  | petscKrylov => "PETScKrylov"
  | scipyKrylov => "ScipyKrylov"

def slot : SolverKind → SolverSlot
  | broyden | newton | nonlinearBlockGS | nonlinearBlockJac | nonlinearRunOnce => .nonlinear
  | _ => .linear

def all : List SolverKind :=
  [broyden, newton, nonlinearBlockGS, nonlinearBlockJac, nonlinearRunOnce,
    direct, linearBlockGS, linearBlockJac, linearRunOnce, linearUserDefined, petscKrylov,
    scipyKrylov]

def ofName? (s : String) : Option SolverKind := all.find? fun k => k.name == s

def inSlot (s : SolverSlot) : List SolverKind := all.filter fun k => k.slot = s

def namesIn (s : SolverSlot) : List String := (inSlot s).map name

theorem mem_all (k : SolverKind) : k ∈ all := by cases k <;> decide

theorem name_injective {a b : SolverKind} (h : a.name = b.name) : a = b := by
  cases a <;> cases b <;> first | rfl | exact absurd h (by decide)

theorem ofName?_eq_some_iff {s : String} {k : SolverKind} : ofName? s = some k ↔ k.name = s := by
  constructor
  · intro h
    simpa using List.find?_some h
  · rintro rfl
    cases h : ofName? k.name with
    | none => simpa using List.find?_eq_none.mp h k (mem_all k)
    | some found =>
      have hname : found.name = k.name := by simpa using List.find?_some h
      rw [name_injective hname]

end SolverKind

end DesignProcess
