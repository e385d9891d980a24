import ZMachine.Console

namespace ZMachine.CommandLine

def usage (program : String) : String :=
  String.join ([
    "zvm - Z-Machine interpreter for story files",
    "",
    s!"Usage: {program} <story_file> [--config FILE] [--seed N] [--limit N]",
    "",
    "  --config FILE  read settings from a TOML file",
    "  --seed N       predictable random numbers from seed N",
    "  --limit N      stop after N instructions",
    "",
    "Set RUST_LOG=debug (or trace) for execution logging."].map (· ++ "\n"))

inductive Refusal where
  | fileMissing
  | valueMissing (flag : String)
  | badValue (flag value : String)
  | unknown (option : String)
  | settings (why : SettingsFlaw)
  deriving DecidableEq

def Refusal.message : Refusal → String
  | .fileMissing => "--config needs a file"
  | .valueMissing flag => s!"{flag} needs a value"
  | .badValue flag value => s!"Invalid value for {flag}: {value}"
  | .unknown option => s!"Unknown option: {option}"
  | .settings why => (Fault.settings why).message

def number? (text : String) : Option UInt64 :=
  let digits := match text.toList with
    | '+' :: digits => digits
    | digits => digits
  if digits.isEmpty || digits.any (!·.isDigit) then none
  else
    let n := numeral 10 digits
    if n < UInt64.size then some (UInt64.ofNat n) else none

structure Invocation where
  story : String
  settingsFile : Option String := none
  seed : Option UInt64 := none
  limit : Option UInt64 := none
  deriving DecidableEq

namespace Invocation

def numeric (flag value : String) : Except Refusal UInt64 :=
  match number? value with
  | none => .error (.badValue flag value)
  | some n => .ok n

/-- Reads flags with their values; the last of a kind wins. -/
def options (i : Invocation) : List String → Except Refusal Invocation
  | [] => return i
  | [flag] => throw <| match flag with
    | "--config" => .fileMissing
    | "--seed" | "--limit" => .valueMissing flag
    | _ => .unknown flag
  | flag :: value :: rest => do
    let i ← match flag with
      | "--config" => pure { i with settingsFile := some value }
      | "--seed" => pure { i with seed := some (← numeric flag value) }
      | "--limit" => pure { i with limit := some (← numeric flag value) }
      | _ => throw (.unknown flag)
    options i rest

end Invocation

def paths : List String → List String
  | [] => []
  | story :: rest =>
    match Invocation.options { story } rest with
    | .error _ => []
    | .ok i => story :: i.settingsFile.toList

abbrev Files := String → Except String (Array UInt8)

def loadSettings (files : Files) (path : String) : Except SettingsFlaw Settings :=
  match files path with
  | .error reason => .error (.unreadable path reason)
  | .ok bytes =>
    match String.fromUTF8? ⟨bytes⟩ with
    | none => .error (.unreadable path invalidUtf8)
    | some text => Settings.parse text

def Invocation.settings (i : Invocation) (files : Files) : Except Refusal Settings := do
  let base ← match i.settingsFile with
    | none => pure {}
    | some path => (loadSettings files path).mapError .settings
  return { base with
    randomSeed := i.seed <|> base.randomSeed
    maxInstructions := i.limit <|> base.maxInstructions }

structure Report where
  exit : UInt8 := 0
  output : String := ""
  errors : String := ""
  deriving DecidableEq

def refused (why : Refusal) : Report := { exit := 2, errors := s!"Error: {why.message}\n" }

def unreadable (story reason : String) : Report :=
  { exit := 1, errors := s!"Error: Cannot read story file '{story}': {reason}\n" }

def failed (output : String) (why : Failure) : Report :=
  { exit := 1, output, errors := s!"\nError during execution: {why.message}\n" }

structure Launch where
  machine : Machine Console
  limit : Option Nat

def launch (program : String) (arguments : List String) (files : Files) (entropy : UInt64) :
    Except Report Launch := do
  match arguments with
  | [] => throw { output := usage program }
  | story :: rest =>
    let invocation ← (Invocation.options { story } rest).mapError refused
    let settings ← (invocation.settings files).mapError refused
    let image ← (files story).mapError (unreadable story)
    let machine ← (Machine.boot image (Console.ofSettings settings entropy)).mapError
      fun e => failed "" (.plain e)
    return { machine, limit := settings.maxInstructions.map UInt64.toNat }

def report : EStateM.Result Failure (Machine Console) Unit → Report
  | .ok () s => { output := s.host.output }
  | .error e s =>
    if e.rootCause = .host .inputClosed then { output := s.host.output }
    else failed s.host.output e

def Launch.run (l : Launch) (input : List UInt8) : Report :=
  report (Machine.run l.limit { l.machine with host := { l.machine.host with input } })

def run (program : String) (arguments : List String) (files : Files) (input : List UInt8)
    (entropy : UInt64) : Report :=
  match launch program arguments files entropy with
  | .error r => r
  | .ok l => l.run input

def awaitsInput (s : Machine Console) : Bool :=
  s.host.input.isEmpty &&
    match s.core.pc.bind (s.core.memory.instruction s.version) with
    | .ok i => i.mnemonic ∈ [.sread, .aread, .readChar]
    | .error _ => false

end ZMachine.CommandLine
