import DesignProcess.AssemblyError
import DesignProcess.Document.Basic
import DesignProcess.Model.Basic
import DesignProcess.Progress
import DesignProcess.Registry

namespace DesignProcess.Model

def optionError (id : String) (path : KeyPath) (name : String) : OptionFault → AssemblyError
  | .unsupported option => .unsupportedOption id option (path.key name)
  | .invalid option reason => .invalidOption id option (path.key name) reason

def configure (id : String) (path : KeyPath) (c : Component) :
    List (String × Scalar) → Except AssemblyError Component
  | [] => .ok c
  | (name, v) :: rest =>
    match c.set name v with
    | .ok c => configure id path c rest
    | .error fault => .error (optionError id path name fault)

def place (fs : FileSystem) (r : Registry) (path : KeyPath) (request : ComponentRequest) :
    Except AssemblyError Placement := do
  let factory ← r.resolve request.id (path.key "id")
  match factory.create fs with
  | .error fault => .error (.creationFailed request.id path fault)
  | .ok fresh =>
    let c ← configure request.id path fresh request.options
    .ok ⟨request.id, c, request.options⟩

def chooseSolvers (path : KeyPath) (texts : SolverTexts) : Except Malformed Solvers := do
  let nonlinear ←
    SolverChoice.ofText? .nonlinear (path.key "nonlinear_solver") texts.nonlinear
  let linear ← SolverChoice.ofText? .linear (path.key "linear_solver") texts.linear
  .ok ⟨nonlinear, linear⟩

mutual

def buildNode (fs : FileSystem) (r : Registry) (path : KeyPath) :
    ModelSpec → Progress AssemblyError Model
  | .component request => do
    let placement ← .ofExcept (place fs r path request)
    .report .taskStep
    return .component placement
  | .group texts specs => do
    let solvers ← .ofExcept (orMalformed (chooseSolvers path texts))
    let children ← buildChildren fs r path specs
    .report .taskStep
    return .group solvers children

def buildChildren (fs : FileSystem) (r : Registry) (path : KeyPath) :
    List (String × ModelSpec) → Progress AssemblyError (List (String × Model))
  | [] => return []
  | (name, spec) :: rest => do
    let child ← buildNode fs r (path.key name) spec
    let children ← buildChildren fs r path rest
    return (name, child) :: children

end

def build (fs : FileSystem) (r : Registry) (spec : ModelSpec) : Progress AssemblyError Model :=
  .task spec.nodeCount (buildNode fs r (KeyPath.root.key "model") spec)

end DesignProcess.Model
