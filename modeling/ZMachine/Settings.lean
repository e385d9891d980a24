import ZMachine.Fault
import ZMachine.Toml.Document

namespace ZMachine

inductive DisplayKind where
  | terminal
  | headless
  deriving DecidableEq

structure Settings where
  /-- Stops a run after so many instructions. -/
  maxInstructions : Option UInt64 := none
  /-- Makes the random numbers predictable. -/
  randomSeed : Option UInt64 := none
  display : DisplayKind := .terminal
  screenWidth : UInt16 := 80
  screenHeight : UInt16 := 25
  deriving DecidableEq

namespace Settings

def natural (bound : Nat) : Toml → Option Nat
  | .integer n => if 0 ≤ n ∧ n < bound then some n.toNat else none
  | _ => none

def displayKind : String → Option DisplayKind
  | "terminal" => some .terminal
  | "headless" => some .headless
  | _ => none

def display? : Toml → Option DisplayKind
  | .string name => displayKind name
  | .table _ [(name, .array [])] | .table _ [(name, .table _ [])] => displayKind name
  | _ => none

def field {α : Type} (entries : Toml.Entries) (name : String) (read : Toml → Option α)
    (default : α) : Except SettingsFlaw α :=
  match entries.get? name with
  | none => .ok default
  | some value =>
    match read value with
    | none => .error (.invalid s!"bad value for {name}")
    | some a => .ok a

def ofEntries (entries : Toml.Entries) : Except SettingsFlaw Settings := do
  let word64 (v : Toml) := (some ∘ UInt64.ofNat) <$> natural UInt64.size v
  let word16 (v : Toml) := UInt16.ofNat <$> natural UInt16.size v
  return {
    maxInstructions := ← field entries "max_instructions" word64 none
    randomSeed := ← field entries "random_seed" word64 none
    display := ← field entries "display" display? .terminal
    screenWidth := ← field entries "screen_width" word16 80
    screenHeight := ← field entries "screen_height" word16 25 }

def parse (text : String) : Except SettingsFlaw Settings :=
  match Toml.parse text with
  | none => .error (.invalid "not a TOML document")
  | some entries => ofEntries entries

end Settings

end ZMachine
