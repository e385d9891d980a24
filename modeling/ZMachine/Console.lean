import ZMachine.Input
import ZMachine.Random.Dice
import ZMachine.Run
import ZMachine.Screen.Headless
import ZMachine.Screen.Terminal
import ZMachine.Settings

namespace ZMachine

inductive Console.Display where
  | terminal (screen : Terminal)
  | headless (screen : Headless)
  deriving DecidableEq

structure Console where
  display : Console.Display
  dice : Dice
  /-- What standard input still holds. -/
  input : List UInt8 := []
  /-- What standard output has got. -/
  written : String := ""
  deriving DecidableEq

namespace Console

variable {α : Type}

def perform (command : Screen.Command) : Console → Console
  | ⟨.terminal screen, dice, input, written⟩ =>
    ⟨.terminal (screen.perform command), dice, input, written ++ screen.output command⟩
  | ⟨.headless screen, dice, input, written⟩ =>
    ⟨.headless (screen.perform command), dice, input, written⟩

def read (act : HostAction (List UInt8) α) : HostAction Console α
  | ⟨.terminal screen, dice, input, written⟩ =>
    match act input with
    | .ok a input => .ok a ⟨.terminal screen, dice, input, written⟩
    | .error e input => .error e ⟨.terminal screen, dice, input, written⟩
  | ⟨.headless screen, dice, input, written⟩ =>
    let shown (p : Prompted (List UInt8)) : Console :=
      ⟨.headless { screen with transcript := p.pending }, dice, p.input, p.written⟩
    match Prompted.read act { input, pending := screen.transcript, written } with
    | .ok a p => .ok a (shown p)
    | .error e p => .error e (shown p)

def output (c : Console) : String :=
  match c.display with
  | .terminal _ => c.written
  | .headless screen => c.written ++ screen.transcript

instance : Host Console where
  capabilities c := match c.display with
    | .terminal screen => screen.capabilities
    | .headless screen => screen.capabilities
  perform c := modify (perform c)
  cursor := do match (← get).display with
    | .terminal screen => return screen.cursor
    | .headless screen => return screen.cursor
  readLine := read Pipe.readLine
  readKey := read Pipe.readKey
  roll range c :=
    let (v, dice) := c.dice.roll range
    (v, { c with dice })
  seed seed c := { c with dice := c.dice.seed seed }
  reseed c := { c with dice := c.dice.reseed }

def ofSettings (s : Settings) (entropy : UInt64) : Console where
  display := match s.display with
    | .terminal => .terminal { width := s.screenWidth, height := s.screenHeight }
    | .headless => .headless { width := s.screenWidth, height := s.screenHeight }
  dice := match s.randomSeed with
    | some seed => .predictable seed entropy
    | none => .unpredictable entropy

end Console

end ZMachine
