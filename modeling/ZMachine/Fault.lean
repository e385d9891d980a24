import ZMachine.Numeral
import ZMachine.Opcode.Mnemonic

namespace ZMachine

inductive Underflow where
  | emptyStack (pc : Nat)
  | noTop (pc : Nat)
  | noRoutine
  | returnFromMain
  | unwind (target depth : Nat)
  | other (text : String)
  deriving DecidableEq

def Underflow.message : Underflow → String
  | .emptyStack pc => s!"evaluation stack empty in routine at PC {hex 5 pc}"
  | .noTop pc => s!"no stack top to replace in routine at PC {hex 5 pc}"
  | .noRoutine => "no active routine"
  | .returnFromMain => "return from the main routine"
  | .unwind target depth => s!"cannot unwind to frame {target} of {depth}"
  | .other text => text

def maxStringWords : Nat := 4096

inductive TextFlaw where
  | unterminated (address : Nat)
  | nestedAbbreviation (address : Nat)
  | other (text : String)
  deriving DecidableEq

def TextFlaw.message : TextFlaw → String
  | .unterminated address =>
    s!"string at {hex 5 address} not terminated within {maxStringWords} words"
  | .nestedAbbreviation address =>
    s!"abbreviation string at {hex 5 address} refers to another abbreviation"
  | .other text => text

inductive PropertyFlaw where
  | noDefault (property : UInt8)
  | notDescending (object : UInt16) (address : Nat) (number previous : UInt8)
  | endless (object : UInt16)
  | noNext (object : UInt16) (property : UInt8)
  | noTarget (object : UInt16) (property : UInt8)
  | other (text : String)
  deriving DecidableEq

def PropertyFlaw.message : PropertyFlaw → String
  | .noDefault property => s!"no default for property {property}"
  | .notDescending object address number previous =>
    s!"object {object} property list not descending at {hex 5 address} ({number} after {previous})"
  | .endless object => s!"object {object} property list does not terminate"
  | .noNext object property => s!"get_next_prop: object {object} has no property {property}"
  | .noTarget object property => s!"put_prop: object {object} has no property {property}"
  | .other text => text

inductive TreeFlaw where
  | notAChild (object parent : UInt16)
  | intoItself (object : UInt16)
  | other (text : String)
  deriving DecidableEq

def TreeFlaw.message : TreeFlaw → String
  | .notAChild object parent => s!"object {object} not found in child list of its parent {parent}"
  | .intoItself object => s!"cannot insert object {object} into itself"
  | .other text => text

inductive Family where
  | math | memory | stack | object | display | input | control
  deriving DecidableEq

def Family.name : Family → String
  | .math => "math"
  | .memory => "memory"
  | .stack => "stack"
  | .object => "object"
  | .display => "display"
  | .input => "input"
  | .control => "control"

inductive StoryFlaw where
  | tooSmall (size : Nat)
  | version (version : UInt8)
  | tooLarge (size : Nat) (version : UInt8) (limit : Nat)
  | notGlobal (number : UInt8)
  | tooManyLocals (address : Nat) (count : UInt8)
  | unhandled (family : Family) (mnemonic : Mnemonic)
  | other (text : String)
  deriving DecidableEq

def StoryFlaw.message : StoryFlaw → String
  | .tooSmall size => s!"image of {size} bytes is too small for a header"
  | .version v => s!"unsupported version {v}"
  | .tooLarge size v limit =>
    s!"image of {size} bytes exceeds the v{v} limit of {limit} bytes"
  | .notGlobal number => s!"variable {hex 2 number.toNat} is not a global"
  | .tooManyLocals address count => s!"routine at {hex 5 address} declares {count} locals"
  | .unhandled family mnemonic => s!"Unhandled {family.name} opcode: {mnemonic.name}"
  | .other text => text

inductive SettingsFlaw where
  | unreadable (path reason : String)
  | invalid (reason : String)
  | other (text : String)
  deriving DecidableEq

def SettingsFlaw.message : SettingsFlaw → String
  | .unreadable path reason => s!"Failed to read {path}: {reason}"
  | .invalid reason => s!"Invalid config: {reason}"
  | .other text => text

/-- What a host may fail with: closed input, I/O, or the display. That the collaborators of a machine
fail in no other way is an assumption on them; these are the failures which section 10.3 of the
specification sets apart for collaborators. -/
inductive HostFailure where
  | inputClosed
  | io (reason : String)
  | display (reason : String)
  deriving DecidableEq

def HostFailure.displayIo (reason : String) : HostFailure :=
  .display s!"I/O error: {reason}"

def HostFailure.message : HostFailure → String
  | .inputClosed => "input closed"
  | .io reason => s!"I/O error: {reason}"
  | .display reason => s!"Display error: {reason}"

/-- Conditions that no story brings about: an address that does not fit 32 bits, an operand that
every encoding of the instruction supplies. -/
inductive Defect where
  | address (value : Nat)
  | missingOperand
  deriving DecidableEq

def Defect.message : Defect → String
  | .address value => s!"address {value} does not fit 32 bits"
  | .missingOperand => "operand missing"

inductive Fault where
  | memory (address width size : Nat)
  | stackUnderflow (why : Underflow)
  | stackOverflow (limit : Nat)
  | malformedText (why : TextFlaw)
  | malformedProperty (why : PropertyFlaw)
  | malformedTree (why : TreeFlaw)
  | invalidObject (number : UInt16)
  | divisionByZero
  | invalidStory (why : StoryFlaw)
  | host (why : HostFailure)
  | settings (why : SettingsFlaw)
  | defect (why : Defect)
  deriving DecidableEq

def Fault.message : Fault → String
  | .memory address width size =>
    s!"memory fault: {width}-byte access at 0x{hex 5 address} outside story image of {size} bytes"
  | .stackUnderflow why => s!"stack underflow: {why.message}"
  | .stackOverflow limit => s!"stack overflow: more than {limit} entries"
  | .malformedText why => s!"malformed text: {why.message}"
  | .malformedProperty why => s!"malformed property: {why.message}"
  | .malformedTree why => s!"malformed object tree: {why.message}"
  | .invalidObject number => s!"invalid object number {number}"
  | .divisionByZero => "division by zero"
  | .invalidStory why => s!"invalid story file: {why.message}"
  | .host why => why.message
  | .settings why => s!"configuration error: {why.message}"
  | .defect why => why.message

/-- Where an instruction was when it failed; `none` stands for an instruction still being
decoded. -/
structure Site where
  pc : Nat
  opcode : UInt8
  mnemonic : Option Mnemonic
  operands : List UInt16
  depth : Nat
  deriving DecidableEq

def Site.name (s : Site) : String := (s.mnemonic.map Mnemonic.name).getD "decode"

def Site.message (s : Site) : String :=
  let operands := ", ".intercalate (s.operands.map fun v => hex 4 v.toNat)
  s!"fault at PC 0x{hex 5 s.pc} executing {s.name} (opcode 0x{hex 2 s.opcode.toNat}, " ++
    s!"operands [{operands}], frame depth {s.depth})"

inductive Failure where
  | plain (fault : Fault)
  | during (site : Site) (source : Failure)
  deriving DecidableEq

def Failure.rootCause : Failure → Fault
  | .plain fault => fault
  | .during _ source => source.rootCause

def Failure.message : Failure → String
  | .plain fault => fault.message
  | .during site source => s!"{site.message}: {source.message}"

abbrev Action (σ α : Type) := EStateM Fault σ α

def Action.reading {σ α : Type} (f : σ → Except Fault α) : Action σ α := fun s =>
  match f s with
  | .ok a => .ok a s
  | .error e => .error e s

end ZMachine
