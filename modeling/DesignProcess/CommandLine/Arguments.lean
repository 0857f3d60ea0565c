import DesignProcess.Document.Format

namespace DesignProcess.CommandLine

inductive Command
  | check (config : Path) (format : Option Format)
  | listModules (config : Option Path) (folders : List Path)
  | listVariables (config : Path) (descriptions : Option Path)
  | generate (path : Path) (format : Option Format) (force : Bool)
deriving DecidableEq, Repr

inductive UsageFault
  | help
  | version
  | nothingGiven
  | missingSubcommand
  | unknownSubcommand
  | missingOperand
  | unknownArgument
  | emptyValue
  | badValue
  | needlessValue
  | conflict
deriving DecidableEq, Repr

inductive Subcommand
  | check
  | listModules
  | listVariables
  | generate
deriving DecidableEq, Repr

def Subcommand.ofName? : String → Option Subcommand
  | "check" => some check
  | "list-modules" => some listModules
  | "list-variables" => some listVariables
  | "gen-conf" => some generate
  | _ => none

def Subcommand.hasOperand : Subcommand → Bool
  | listModules => false
  | _ => true

inductive OptionName
  | help
  | version
  | verbose
  | quiet
  | logFile
  | format
  | config
  | folder
  | descriptions
  | force
deriving DecidableEq, Repr

namespace OptionName

def long : OptionName → String
  | help => "help"
  | version => "version"
  | verbose => "verbose"
  | quiet => "quiet"
  | logFile => "log-file"
  | format => "format"
  | config => "config"
  | folder => "folder"
  | descriptions => "descriptions"
  | force => "force"

def short? : OptionName → Option Char
  | help => some 'h'
  | version => some 'V'
  | verbose => some 'v'
  | quiet => some 'q'
  | format => some 'f'
  | config => some 'c'
  | descriptions => some 'd'
  | _ => none

def takesValue : OptionName → Bool
  | logFile | format | config | folder | descriptions => true
  | _ => false

def mayRepeat : OptionName → Bool
  | verbose | folder => true
  | _ => false

def everywhere : List OptionName := [help, version, verbose, quiet, logFile]

def available : Option Subcommand → List OptionName
  | none => everywhere
  | some .check => format :: everywhere
  | some .listModules => config :: folder :: everywhere
  | some .listVariables => descriptions :: everywhere
  | some .generate => format :: force :: everywhere

end OptionName

inductive Owner
  | option (name : OptionName)
  | operand
deriving DecidableEq, Repr

/-- The part of a command line before the subcommand, or the part behind it, as far as it has been
read. A value is looked at only when the next argument has turned out to be none of its own. -/
structure Level where
  subcommand : Option Subcommand
  options : List (OptionName × String)
  operands : List String
  pending : Option (Owner × Option String)
  plainOnly : Bool
deriving DecidableEq, Repr

namespace Level

def start (subcommand : Option Subcommand) : Level := ⟨subcommand, [], [], none, false⟩

def has (l : Level) (o : OptionName) : Bool := l.options.any (·.1 = o)

def value? (l : Level) (o : OptionName) : Option String := l.options.lookup o

def valueFault? (o : OptionName) (v : String) : Option UsageFault :=
  if o = .format then (if (Format.ofName? v).isSome then none else some .badValue)
  else if v.isEmpty then some .emptyValue
  else none

def addOption (l : Level) (o : OptionName) (v : String) : Level :=
  { l with options := l.options ++ [(o, v)] }

def setValue (l : Level) (o : OptionName) (v : String) : Except UsageFault Level :=
  if l.has o && !o.mayRepeat then .error .conflict
  else match valueFault? o v with
    | some fault => .error fault
    | none => .ok (l.addOption o v)

def settle (l : Level) : Except UsageFault Level :=
  let settled := { l with pending := none }
  match l.pending with
  | none => .ok l
  | some (.option _, none) => .error .emptyValue
  | some (.option o, some v) => settled.setValue o v
  | some (.operand, v) =>
    if (v.getD "").isEmpty then .error .emptyValue
    else .ok { settled with operands := l.operands ++ [v.getD ""] }

def setFlag (l : Level) (o : OptionName) : Except UsageFault Level := do
  let l ← l.settle
  match o with
  | .help => .error .help
  | .version => .error .version
  | _ => if l.has o && !o.mayRepeat then .error .conflict else .ok (l.addOption o "")

def setOption (l : Level) (o : OptionName) : Option String → Except UsageFault Level
  | some v => do (← l.settle).setValue o v
  | none => do .ok { ← l.settle with pending := some (.option o, none) }

def findLong (l : Level) (name : String) : Option OptionName :=
  (OptionName.available l.subcommand).find? (·.long == name)

def findShort (l : Level) (c : Char) : Option OptionName :=
  (OptionName.available l.subcommand).find? (·.short? == some c)

def longOption (l : Level) (cs : List Char) : Except UsageFault Level :=
  let attached := match cs.dropWhile (· ≠ '=') with
    | _ :: v => some (String.ofList v)
    | [] => none
  match l.findLong (String.ofList (cs.takeWhile (· ≠ '='))) with
  | none => .error .unknownArgument
  | some o =>
    if o.takesValue then l.setOption o attached
    else if attached.isSome then .error .needlessValue
    else l.setFlag o

def attachedValue : List Char → Option String
  | [] => none
  | '=' :: v => some (String.ofList v)
  | v => some (String.ofList v)

def shortOptions (l : Level) : List Char → Except UsageFault Level
  | [] => .ok l
  | c :: r =>
    match l.findShort c with
    | none => .error .unknownArgument
    | some o =>
      if o.takesValue then l.setOption o (attachedValue r)
      else do shortOptions (← l.setFlag o) r

def operandCount (l : Level) : Nat :=
  l.operands.length + if l.pending.any (·.1 = .operand) then 1 else 0

def operand (l : Level) (arg : String) : Except UsageFault Level :=
  match l.subcommand with
  | none =>
    let dashed := l.plainOnly && (arg = "help" || (Subcommand.ofName? arg).isSome)
    .error (if dashed then .unknownArgument else .unknownSubcommand)
  | some s =>
    if s.hasOperand && l.operandCount = 0 then do
      .ok { ← l.settle with pending := some (.operand, some arg) }
    else .error .unknownArgument

def awaitsValue (l : Level) : Bool :=
  match l.pending with
  | some (.option _, none) => true
  | _ => false

def plain (l : Level) (arg : String) : Except UsageFault Level :=
  match l.pending with
  | some (.option o, none) =>
    if l.plainOnly then l.operand arg
    else .ok { l with pending := some (.option o, some arg) }
  | _ => l.operand arg

def argument (l : Level) (arg : String) : Except UsageFault Level :=
  if l.plainOnly then l.plain arg
  else match arg.toList with
    | ['-', '-'] => .ok { l with plainOnly := true }
    | '-' :: '-' :: cs => l.longOption cs
    | '-' :: c :: cs => l.shortOptions (c :: cs)
    | _ => l.plain arg

def quietAndVerbose (l : Level) : Bool := l.has .quiet && l.has .verbose

end Level

def path? (v : Option String) : Option Path := v.map Path.mk

def format? (l : Level) : Option Format := (l.value? .format).bind Format.ofName?

def command (s : Subcommand) (l : Level) : Except UsageFault Command := do
  let l ← l.settle
  if l.quietAndVerbose then .error .conflict
  else match s, l.operands with
    | .check, [config] => .ok (.check ⟨config⟩ (format? l))
    | .listModules, _ =>
      let folders := (l.options.filter (·.1 = .folder)).map fun o => ⟨o.2⟩
      .ok (.listModules (path? (l.value? .config)) folders)
    | .listVariables, [config] => .ok (.listVariables ⟨config⟩ (path? (l.value? .descriptions)))
    | .generate, [path] => .ok (.generate ⟨path⟩ (format? l) (l.has .force))
    | _, _ => .error .missingOperand

def helpOn : List String → UsageFault
  | [] => .help
  | [name] =>
    if name = "help" ∨ (Subcommand.ofName? name).isSome then .help else .unknownSubcommand
  | _ => .unknownSubcommand

def withoutSubcommand (l : Level) : Except UsageFault Command := do
  let l ← l.settle
  .error (if l.options.isEmpty then .nothingGiven else .missingSubcommand)

def readFrom (l : Level) : List String → Except UsageFault Command
  | [] => withoutSubcommand l
  | arg :: rest =>
    if l.plainOnly || l.awaitsValue then do readFrom (← l.argument arg) rest
    else if arg = "help" then .error (helpOn rest)
    else match Subcommand.ofName? arg with
      | none => do readFrom (← l.argument arg) rest
      | some s => do
        let c ← command s (← rest.foldlM Level.argument (.start (some s)))
        if (← l.settle).quietAndVerbose then .error .conflict else .ok c

def read (args : List String) : Except UsageFault Command := readFrom (.start none) args

end DesignProcess.CommandLine
