import ZMachine.Input
import ZMachine.Random.Dice
import ZMachine.Run
import ZMachine.Screen.Headless
import ZMachine.Story

namespace ZMachine

structure Playback where
  screen : Headless := {}
  script : List String := []
  dice : Dice := .predictable 0 0

namespace Playback

variable {α : Type}

def onScript (act : HostAction (List String) α) : HostAction Playback α := fun p =>
  match act p.script with
  | .ok a script => .ok a { p with script }
  | .error e script => .error e { p with script }

def perform (c : Screen.Command) (p : Playback) : Playback :=
  { p with screen := p.screen.perform c }

instance : Host Playback where
  capabilities p := p.screen.capabilities
  perform c := modify (perform c)
  cursor := (·.screen.cursor) <$> get
  readLine := onScript Script.readLine
  readKey := onScript Script.readKey
  roll range p :=
    let (v, dice) := p.dice.roll range
    (v, { p with dice })
  seed seed p := { p with dice := p.dice.seed seed }
  reseed p := { p with dice := p.dice.reseed }

end Playback

abbrev Session := Machine Playback

namespace Session

def start (version : UInt8) (parts : List Story.Part) (script : List String) :
    Except Fault Session := do
  return Machine.start (← Core.boot (← Story.build version parts)) { script }

def limit : Nat := 10000

def run : EStateM Failure Session Unit := Machine.run (some limit)

/-- The value of a global by its index from 0; 57005 for one outside the image. -/
def global (s : Session) (index : UInt8) : UInt16 :=
  match Core.readGlobal s.core.memory (16 + index) with
  | .ok v => v
  | .error _ => 0xDEAD

end Session

end ZMachine
