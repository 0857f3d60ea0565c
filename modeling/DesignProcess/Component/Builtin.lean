import DesignProcess.Component.Basic

namespace DesignProcess.Builtin

def propulsion : OptionRule :=
  { OptionRule.plain "propulsion_id" .string with
    default := some (.string "fastoad.wrapper.propulsion.rubber_engine") }

def flag (name : String) (value : Bool) : OptionRule :=
  { OptionRule.plain name .boolean with default := some (.boolean value) }

def word (name value : String) : OptionRule :=
  { OptionRule.plain name .string with default := some (.string value) }

def ranged (name : String) (value lower upper : Float) : OptionRule :=
  { OptionRule.plain name .float with
    default := some (.float value), lower := some lower, upper := some upper }

def geometry : ComponentType where
  identifier := "fastoad.geometry.legacy"
  description := "Wing, fuselage, tail and nacelle geometry from top-level design parameters"
  interface := Variable.ofNames
    ["data:geometry:wing:area",
      "data:geometry:wing:aspect_ratio",
      "data:geometry:wing:sweep_25",
      "data:geometry:wing:MAC:at25percent:x",
      "data:geometry:cabin:NPAX1",
      "data:geometry:propulsion:engine:count"]
    ["data:geometry:wing:span",
      "data:geometry:wing:MAC:length",
      "data:geometry:wing:wetted_area",
      "data:geometry:fuselage:length",
      "data:geometry:fuselage:wetted_area",
      "data:geometry:horizontal_tail:wetted_area",
      "data:geometry:vertical_tail:wetted_area",
      "data:geometry:aircraft:wetted_area"]
  options := [propulsion, ranged "cabin_sizing" 1.0 0.0 1.0]
  requires := []

def lowSpeedAerodynamics : ComponentType where
  identifier := "fastoad.aerodynamics.lowspeed.legacy"
  description := "Low-speed lift and drag polar"
  interface := Variable.ofNames
    ["data:geometry:wing:area", "data:geometry:wing:span", "data:geometry:aircraft:wetted_area"]
    ["data:aerodynamics:aircraft:low_speed:CD0",
      "data:aerodynamics:aircraft:low_speed:CL_alpha",
      "data:aerodynamics:aircraft:low_speed:CL_max_clean"]
  options := [propulsion, flag "use_openvsp" false]
  requires := []

def highSpeedAerodynamics : ComponentType where
  identifier := "fastoad.aerodynamics.highspeed.legacy"
  description := "Cruise lift and drag polar including compressibility drag"
  interface := Variable.ofNames
    ["data:geometry:wing:area",
      "data:geometry:wing:sweep_25",
      "data:geometry:aircraft:wetted_area",
      "data:TLAR:cruise_mach"]
    ["data:aerodynamics:aircraft:cruise:CD0",
      "data:aerodynamics:aircraft:cruise:L_D_max",
      "data:aerodynamics:aircraft:cruise:optimal_CL"]
  options := [propulsion, flag "use_openvsp" false, word "result_folder_path" ""]
  requires := []

def takeoffAerodynamics : ComponentType where
  identifier := "fastoad.aerodynamics.takeoff"
  description := "High-lift increments in takeoff configuration"
  interface := Variable.ofNames
    ["data:geometry:wing:area",
      "data:mission:sizing:takeoff:flap_angle",
      "data:mission:sizing:takeoff:slat_angle"]
    ["data:aerodynamics:aircraft:takeoff:CL", "data:aerodynamics:aircraft:takeoff:CD"]
  options := []
  requires := []

def landingAerodynamics : ComponentType where
  identifier := "fastoad.aerodynamics.landing.legacy"
  description := "Maximum lift coefficient in landing configuration"
  interface := Variable.ofNames
    ["data:geometry:wing:area",
      "data:aerodynamics:aircraft:low_speed:CL_max_clean",
      "data:mission:sizing:landing:flap_angle"]
    ["data:aerodynamics:aircraft:landing:CL_max"]
  options := [flag "use_xfoil" false,
    ranged "xfoil_alpha_min" 0.0 (-90.0) 90.0,
    ranged "xfoil_alpha_max" 22.0 (-90.0) 90.0]
  requires := []

def weight : ComponentType where
  identifier := "fastoad.weight.legacy"
  description := "Operating empty weight breakdown from statistical mass models"
  interface := Variable.ofNames
    ["data:geometry:wing:area",
      "data:geometry:wing:span",
      "data:geometry:fuselage:length",
      "data:weight:aircraft:MTOW",
      "data:weight:aircraft:MZFW"]
    ["data:weight:airframe:wing:mass",
      "data:weight:airframe:fuselage:mass",
      "data:weight:aircraft:OWE",
      "data:weight:aircraft:CG:aft:x"]
  options := [propulsion, flag "payload_from_npax" true]
  requires := []

def takeoffWeight : ComponentType where
  identifier := "fastoad.mass_performances.compute_MTOW"
  description := "MTOW as the sum of OWE, payload and mission fuel"
  interface := Variable.ofNames
    ["data:weight:aircraft:OWE",
      "data:weight:aircraft:payload",
      "data:mission:sizing:needed_block_fuel"]
    ["data:weight:aircraft:MTOW"]
  options := []
  requires := []

def mission : ComponentType where
  identifier := "fastoad.performances.mission"
  description := "Mission simulation from a mission definition file"
  interface := Variable.ofNames
    ["data:weight:aircraft:MTOW",
      "data:weight:aircraft:OWE",
      "data:aerodynamics:aircraft:cruise:CD0",
      "data:aerodynamics:aircraft:cruise:L_D_max",
      "data:TLAR:range"]
    ["data:mission:sizing:needed_block_fuel",
      "data:mission:sizing:fuel",
      "data:mission:sizing:ZFW"]
  options := [propulsion,
    word "mission_file_path" "::sizing_mission",
    word "out_file" "",
    flag "use_initializer_iteration" true,
    flag "adjust_fuel" true,
    flag "compute_TOW" false,
    word "mission_name" "sizing"]
  requires := []

def staticMargin : ComponentType where
  identifier := "fastoad.handling_qualities.static_margin"
  description := "Static margin from the neutral point and the aft centre of gravity"
  interface := Variable.ofNames
    ["data:weight:aircraft:CG:aft:x",
      "data:geometry:wing:MAC:length",
      "data:geometry:wing:MAC:at25percent:x",
      "data:aerodynamics:aircraft:cruise:CL_alpha"]
    ["data:handling_qualities:static_margin"]
  options := [ranged "target" 0.05 (-1.0) 1.0]
  requires := []

def tailSizing : ComponentType where
  identifier := "fastoad.handling_qualities.tail_sizing"
  description := "Horizontal and vertical tail areas for trim and engine-out control"
  interface := Variable.ofNames
    ["data:weight:aircraft:CG:aft:x",
      "data:geometry:wing:MAC:length",
      "data:geometry:fuselage:length"]
    ["data:geometry:horizontal_tail:area", "data:geometry:vertical_tail:area"]
  options := [propulsion]
  requires := []

def wingAreaLoop : ComponentType where
  identifier := "fastoad.loop.wing_area"
  description := "Wing area from fuel capacity and approach speed requirements"
  interface := Variable.ofNames
    ["data:mission:sizing:fuel",
      "data:TLAR:approach_speed",
      "data:aerodynamics:aircraft:landing:CL_max",
      "data:weight:aircraft:MLW"]
    ["data:geometry:wing:area"]
  options := []
  requires := []

def weightLoop : ComponentType where
  identifier := "fastoad.loop.mtow"
  description := "Closes the weight loop between estimated and computed MTOW"
  interface := Variable.ofNames
    ["data:weight:aircraft:OWE", "data:weight:aircraft:payload", "data:mission:sizing:fuel"]
    ["data:weight:aircraft:MTOW", "data:weight:aircraft:MZFW", "data:weight:aircraft:MLW"]
  options := []
  requires := []

def catalog : List ComponentType :=
  [geometry, lowSpeedAerodynamics, highSpeedAerodynamics, takeoffAerodynamics,
    landingAerodynamics, weight, takeoffWeight, mission, staticMargin, tailSizing, wingAreaLoop,
    weightLoop]

end DesignProcess.Builtin
