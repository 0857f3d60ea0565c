import DesignProcess.Assembly
import DesignProcess.Descriptions

namespace DesignProcess

namespace Report

def line (parts : List String) : String := String.join parts ++ "\n"

def padded (width : Nat) (s : String) : String :=
  s ++ String.ofList (List.replicate (width - s.length) ' ')

def width (texts : List String) : Nat := (texts.map String.utf8ByteSize).foldl max 0

def field (label : String) : Option String → String
  | some s => line [label, ": ", s]
  | none => ""

def optionsSuffix (options : List (String × Scalar)) : String :=
  if options.isEmpty then "" else " " ++ CallSpec.renderArguments options

mutual

def node (indent name : String) : Model → String
  | .component p => line [indent, name, ": ", p.identifier, optionsSuffix p.options]
  | .group solvers children =>
    line [indent, name, " [nonlinear: ", solvers.nonlinear.render, ", linear: ",
      solvers.linear.render, "]"] ++ nodes (indent ++ "  ") children

def nodes (indent : String) : List (String × Model) → String
  | [] => ""
  | (name, child) :: rest => node indent name child ++ nodes indent rest

end

def bound (b : Option Float) : String := (b.map Decimal.plain.render).getD "-"

def range (e : VariableEntry) : String :=
  if e.lower.isSome || e.upper.isSome then s!" in [{bound e.lower}, {bound e.upper}]" else ""

def binding (b : Binding) : String :=
  line ["  ", b.role.name, ": ", b.entry.name, range b.entry,
    (b.entry.units.map (" " ++ ·)).getD "",
    (b.entry.scaler.map fun x => s!" (scaler {Decimal.plain.render x})").getD ""]

def optimization (o : Optimization) : String :=
  "Optimization:\n" ++
    String.join ((o.designVariables ++ o.constraints ++ [o.objective]).map binding)

def problem (p : Problem) : String :=
  (if p.title.isEmpty then "" else field "Problem" (some p.title)) ++
    field "Input file" (p.inputFile.map (·.text)) ++
    field "Output file" (p.outputFile.map (·.text)) ++
    field "Driver" (p.driver.map (·.render)) ++
    "Model:\n" ++ node "  " "model" p.model ++ (p.optimization.map optimization).getD ""

def origin : Origin → String
  | .builtIn => "built-in"
  | .discovered manifest => manifest.text

def registration (width : Nat) (r : Registration) : String :=
  line [padded width r.identifier, "  [", origin r.origin, "]  ", r.factory.description]

def registry (r : Registry) : String :=
  String.join (r.toList.map (registration (width r.identifiers))) ++
    line [s!"{r.size} component(s) available."]

def declaration (width : Nat) (d : Descriptions) (name : String) (u : Model.Usage) : String :=
  line [padded width name, "  [", padded 6 u.label, "]", ((d.get? name).map ("  " ++ ·)).getD ""]

def variableList (m : Model) (d : Descriptions) : String :=
  let declared := m.declarations
  String.join
      (declared.entries.map fun (name, u) => declaration (width declared.names) d name u) ++
    line [s!"{declared.size} variable(s) declared."]

end Report

end DesignProcess
