import ZMachine.Fault

namespace ZMachine

def evaluationLimit : Nat := 1024

def callDepthLimit : Nat := 1024

structure Frame where
  /-- Address of the next instruction. -/
  pc : Nat
  locals : Vector UInt16 16 := Vector.replicate 16 0
  /-- How many locals the routine declares. -/
  numLocals : UInt8 := 0
  /-- How many arguments the caller supplied. -/
  arity : UInt8 := 0
  /-- The caller's variable for the result. -/
  storeTo : Option UInt8 := none
  stack : List UInt16 := []
  deriving DecidableEq

namespace Frame

def push (v : UInt16) : Action Frame Unit := fun f =>
  if evaluationLimit ≤ f.stack.length then .error (.stackOverflow evaluationLimit) f
  else .ok () { f with stack := v :: f.stack }

def pop : Action Frame UInt16 := fun f =>
  match f.stack with
  | [] => .error (.stackUnderflow (.emptyStack f.pc)) f
  | v :: rest => .ok v { f with stack := rest }

def peek (f : Frame) : Except Fault UInt16 :=
  match f.stack with
  | [] => .error (.stackUnderflow (.emptyStack f.pc))
  | v :: _ => .ok v

def replaceTop (v : UInt16) : Action Frame Unit := fun f =>
  match f.stack with
  | [] => .error (.stackUnderflow (.noTop f.pc)) f
  | _ :: rest => .ok () { f with stack := v :: rest }

/-- Local `i`, from 0; slots that do not exist read as 0. -/
def readLocal (f : Frame) (i : Nat) : UInt16 := f.locals[i]?.getD 0

def writeLocal (i : Nat) (v : UInt16) (f : Frame) : Frame :=
  { f with locals := f.locals.setIfInBounds i v }

end Frame

abbrev CallStack := List Frame

namespace CallStack

def push (f : Frame) : Action CallStack Unit := fun s =>
  if callDepthLimit ≤ s.length then .error (.stackOverflow callDepthLimit) s
  else .ok () (f :: s)

def top : CallStack → Except Fault Frame
  | [] => .error (.stackUnderflow .noRoutine)
  | f :: _ => .ok f

def onTop {α : Type} (act : Action Frame α) : Action CallStack α
  | [] => .error (.stackUnderflow .noRoutine) []
  | f :: rest =>
    match act f with
    | .ok a f => .ok a (f :: rest)
    | .error e f => .error e (f :: rest)

def pop : Action CallStack Frame
  | f :: g :: rest => .ok f (g :: rest)
  | s => .error (.stackUnderflow .returnFromMain) s

def unwindTo (depth : Nat) : Action CallStack Unit := fun s =>
  if depth = 0 ∨ s.length < depth then
    .error (.stackUnderflow (.unwind depth s.length)) s
  else .ok () (s.drop (s.length - depth))

end CallStack

end ZMachine
