import DesignProcess.Document.Format

namespace DesignProcess.Sample

def tomlLines : List String := [
  "# Sample process description: conceptual sizing of a short/medium range transport.",
  "title = \"Sample aircraft sizing process\"",
  "",
  "# Folders searched for additional component manifests, relative to this file.",
  "module_folders = []",
  "",
  "input_file = \"./problem_inputs.xml\"",
  "output_file = \"./problem_outputs.xml\"",
  "",
  "driver = \"om.ScipyOptimizeDriver(optimizer='SLSQP', tol=1e-6, maxiter=100)\"",
  "",
  "[model]",
  "nonlinear_solver = \"om.NonlinearBlockGS(maxiter=100, iprint=0, rtol=1e-10)\"",
  "linear_solver = \"om.DirectSolver()\"",
  "",
  "[model.geometry]",
  "id = \"fastoad.geometry.legacy\"",
  "propulsion_id = \"fastoad.wrapper.propulsion.rubber_engine\"",
  "",
  "[model.aerodynamics_lowspeed]",
  "id = \"fastoad.aerodynamics.lowspeed.legacy\"",
  "propulsion_id = \"fastoad.wrapper.propulsion.rubber_engine\"",
  "",
  "[model.aerodynamics_highspeed]",
  "id = \"fastoad.aerodynamics.highspeed.legacy\"",
  "propulsion_id = \"fastoad.wrapper.propulsion.rubber_engine\"",
  "",
  "[model.aerodynamics_landing]",
  "id = \"fastoad.aerodynamics.landing.legacy\"",
  "use_xfoil = false",
  "",
  "[model.weight]",
  "id = \"fastoad.weight.legacy\"",
  "",
  "[model.performance]",
  "id = \"fastoad.performances.mission\"",
  "propulsion_id = \"fastoad.wrapper.propulsion.rubber_engine\"",
  "mission_name = \"sizing\"",
  "adjust_fuel = true",
  "",
  "[model.hq]",
  "linear_solver = \"om.LinearBlockGS()\"",
  "",
  "[model.hq.tail_sizing]",
  "id = \"fastoad.handling_qualities.tail_sizing\"",
  "",
  "[model.hq.static_margin]",
  "id = \"fastoad.handling_qualities.static_margin\"",
  "target = 0.05",
  "",
  "[model.wing_area]",
  "id = \"fastoad.loop.wing_area\"",
  "",
  "[model.mtow]",
  "id = \"fastoad.loop.mtow\"",
  "",
  "[[optimization.design_var]]",
  "name = \"data:geometry:wing:aspect_ratio\"",
  "lower = 9.0",
  "upper = 18.0",
  "",
  "[[optimization.constraint]]",
  "name = \"data:geometry:wing:span\"",
  "upper = 60.0",
  "units = \"m\"",
  "",
  "[[optimization.objective]]",
  "name = \"data:mission:sizing:needed_block_fuel\"",
  "scaler = 1e-4"]

def yamlLines : List String := [
  "# Sample process description: conceptual sizing of a short/medium range transport.",
  "title: Sample aircraft sizing process",
  "",
  "# Folders searched for additional component manifests, relative to this file.",
  "module_folders: []",
  "",
  "input_file: ./problem_inputs.xml",
  "output_file: ./problem_outputs.xml",
  "",
  "driver: om.ScipyOptimizeDriver(optimizer='SLSQP', tol=1e-6, maxiter=100)",
  "",
  "model:",
  "  nonlinear_solver: om.NonlinearBlockGS(maxiter=100, iprint=0, rtol=1e-10)",
  "  linear_solver: om.DirectSolver()",
  "  geometry:",
  "    id: fastoad.geometry.legacy",
  "    propulsion_id: fastoad.wrapper.propulsion.rubber_engine",
  "  aerodynamics_lowspeed:",
  "    id: fastoad.aerodynamics.lowspeed.legacy",
  "    propulsion_id: fastoad.wrapper.propulsion.rubber_engine",
  "  aerodynamics_highspeed:",
  "    id: fastoad.aerodynamics.highspeed.legacy",
  "    propulsion_id: fastoad.wrapper.propulsion.rubber_engine",
  "  aerodynamics_landing:",
  "    id: fastoad.aerodynamics.landing.legacy",
  "    use_xfoil: false",
  "  weight:",
  "    id: fastoad.weight.legacy",
  "  performance:",
  "    id: fastoad.performances.mission",
  "    propulsion_id: fastoad.wrapper.propulsion.rubber_engine",
  "    mission_name: sizing",
  "    adjust_fuel: true",
  "  hq:",
  "    linear_solver: om.LinearBlockGS()",
  "    tail_sizing:",
  "      id: fastoad.handling_qualities.tail_sizing",
  "    static_margin:",
  "      id: fastoad.handling_qualities.static_margin",
  "      target: 0.05",
  "  wing_area:",
  "    id: fastoad.loop.wing_area",
  "  mtow:",
  "    id: fastoad.loop.mtow",
  "",
  "optimization:",
  "  design_var:",
  "    - name: data:geometry:wing:aspect_ratio",
  "      lower: 9.0",
  "      upper: 18.0",
  "  constraint:",
  "    - name: data:geometry:wing:span",
  "      upper: 60.0",
  "      units: m",
  "  objective:",
  "    - name: data:mission:sizing:needed_block_fuel",
  "      scaler: 1.0e-4"]

def text : Format → String
  | .toml => String.join (tomlLines.map (· ++ "\n"))
  | .yaml => String.join (yamlLines.map (· ++ "\n"))

end DesignProcess.Sample
