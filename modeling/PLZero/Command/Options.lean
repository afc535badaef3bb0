import PLZero.Log
import PLZero.Machine
import PLZero.Text.Decimal

/-!
# Command-line options

Options stand before or after the one file. An option's value is the next argument or follows an equals
sign; only `-v` may be given more than once, also as `-vv`. After `--` every argument is a file.
-/

namespace PLZero.Command

inductive Switch where
  | tokens | noColor | ast | bc | listing | stats | image
deriving DecidableEq

/-- How a switch is written, after two hyphens. -/
def Switch.name : Switch → String
  | tokens => "tokens"
  | noColor => "no-color"
  | ast => "ast"
  | bc => "bc"
  | listing => "listing"
  | stats => "stats"
  | image => "image"

def Switch.ofName? (name : String) : Option Switch :=
  [tokens, noColor, ast, bc, listing, stats, image].find? fun switch => switch.name = name

inductive Setting where
  | emit | maxSteps | maxDepth
deriving DecidableEq

/-- How a setting is written, after two hyphens. -/
def Setting.name : Setting → String
  | emit => "emit"
  | maxSteps => "max-steps"
  | maxDepth => "max-depth"

def Setting.ofName? (name : String) : Option Setting :=
  [emit, maxSteps, maxDepth].find? fun setting => setting.name = name

structure Given where
  files : List String
  switches : List Switch
  settings : List (Setting × String)
  verbose : Nat

/-- Adds a switch; it may be given once. -/
def Given.addSwitch? (g : Given) (switch : Switch) : Option Given :=
  if switch ∈ g.switches then none else some { g with switches := switch :: g.switches }

/-- Adds a setting; it may be given once. -/
def Given.addSetting? (g : Given) (setting : Setting) (value : String) : Option Given :=
  match g.settings.lookup setting with
  | some _ => none
  | none => some { g with settings := (setting, value) :: g.settings }

/-- Whether an argument is an option and cannot be the value of one. -/
def isOption (arg : String) : Bool :=
  match arg.toList with
  | '-' :: _ :: _ => true
  | _ => false

/-- A long option, without its hyphens, as its name and the value after its equals sign. -/
def splitValue (option : List Char) : String × Option String :=
  let name := option.takeWhile (· ≠ '=')
  match option.drop name.length with
  | _ :: value => (String.ofList name, some (String.ofList value))
  | [] => (String.ofList name, none)

/-- Reads the arguments; the result is `none` if they are refused. -/
def scan (g : Given) : List String → Option Given
  | [] => some g
  | arg :: rest =>
    match arg.toList with
    | ['-', '-'] => some { g with files := g.files ++ rest }
    | '-' :: '-' :: option =>
      let (name, value?) := splitValue option
      match Switch.ofName? name, Setting.ofName? name, value? with
      | some switch, _, none => match g.addSwitch? switch with
        | some g => scan g rest
        | none => none
      | _, some setting, some value => match g.addSetting? setting value with
        | some g => scan g rest
        | none => none
      | _, some setting, none => match rest with
        | value :: rest =>
          if isOption value then none
          else match g.addSetting? setting value with
            | some g => scan g rest
            | none => none
        | [] => none
      | _, _, none => if name = "verbose" then scan { g with verbose := g.verbose + 1 } rest else none
      | _, _, _ => none
    | '-' :: first :: flags =>
      if (first :: flags).all (· = 'v') then
        scan { g with verbose := g.verbose + (first :: flags).length } rest
      else none
    | _ => scan { g with files := g.files ++ [arg] } rest

structure Options where
  file : String
  switches : List Switch
  emit : Option String
  limits : Limits
  verbose : Nat

namespace Options

/-- The number that a setting gives, or the one that holds without it. -/
def number? (g : Given) (setting : Setting) (default : Option Nat) : Option (Option Nat) :=
  match g.settings.lookup setting with
  | none => some default
  | some value => match Decimal.count? value.toList with
    | some n => some (some n)
    | none => none

/-- The options of a command line; `none` if it is refused. -/
def parse (args : List String) : Option Options := do
  let g ← scan ⟨[], [], [], 0⟩ args
  let maxSteps ← number? g .maxSteps none
  let maxDepth ← number? g .maxDepth none
  match g.files with
  | [file] =>
    let limits : Limits := { steps := maxSteps }
    return {
      file
      switches := g.switches
      emit := g.settings.lookup .emit
      limits := match maxDepth with
        | some depth => { limits with callDepth := depth }
        | none => limits
      verbose := g.verbose }
  | _ => none

def has (o : Options) (switch : Switch) : Bool := switch ∈ o.switches

/-- The most detailed log entries to show. -/
def logLevel (o : Options) : Log.Level :=
  match o.verbose with
  | 0 => .warn
  | 1 => .debug
  | _ => .trace

end Options

end PLZero.Command
