import ZMachine.Input
import ZMachine.Proofs.Action
import ZMachine.Screen.Headless

/-!
The text of the lower window between the screen that collects it and the output that gets it. What has been
written, followed by what the screen still keeps, is always all that was printed to the lower window, however
prints and reads alternate and whether or not the reads succeed.
-/

namespace ZMachine

open Screen (Command)

namespace Screen

def Command.windowAfter : Command → UInt8 → UInt8
  | .setWindow window, _ => window
  | .eraseWindow code, window => if code = -1 then 0 else window
  | _, window => window

def Command.lower : Command → UInt8 → String
  | .print text, window => if window = 1 then "" else text
  | _, _ => ""

def selected (window : UInt8) (cs : List Command) : UInt8 := cs.foldl (fun w c => c.windowAfter w) window

def lowerText (window : UInt8) : List Command → String
  | [] => ""
  | c :: cs => c.lower window ++ lowerText (c.windowAfter window) cs

theorem selected_concat (window : UInt8) (cs : List Command) (c : Command) :
    selected window (cs ++ [c]) = c.windowAfter (selected window cs) := by
  simp [selected]

theorem lowerText_concat (window : UInt8) (cs : List Command) (c : Command) :
    lowerText window (cs ++ [c]) = lowerText window cs ++ c.lower (selected window cs) := by
  induction cs generalizing window with
  | nil => simp [lowerText, selected]
  | cons d cs ih => simp [lowerText, selected, ih, String.append_assoc]

end Screen

open Screen (lowerText selected)

namespace Headless

theorem window_perform (c : Command) (s : Headless) : (s.perform c).window = c.windowAfter s.window := by
  cases c with
  | print text =>
    simp only [perform, Command.windowAfter]
    split <;> rfl
  | setWindow window =>
    simp only [perform, Command.windowAfter]
    split <;> rfl
  | eraseWindow code =>
    simp only [perform, Command.windowAfter]
    split <;> split <;> rfl
  | _ => rfl

theorem transcript_perform (c : Command) (s : Headless) :
    (s.perform c).transcript = s.transcript ++ c.lower s.window := by
  cases c with
  | print text =>
    simp only [perform, Command.lower]
    split
    · exact String.append_empty.symm
    · rfl
  | setWindow window =>
    simp only [perform, Command.lower, String.append_empty]
    split <;> rfl
  | eraseWindow code =>
    simp only [perform, Command.lower, String.append_empty]
    split <;> split <;> rfl
  | _ => exact String.append_empty.symm

end Headless

variable {ι α : Type}

def inState {ε σ τ : Type} (f : σ → τ) : EStateM.Result ε σ α → EStateM.Result ε τ α
  | .ok a s => .ok a (f s)
  | .error e s => .error e (f s)

theorem ending_inState {ε σ τ : Type} (f : σ → τ) (r : EStateM.Result ε σ α) :
    ending (inState f r) = f (ending r) := by
  cases r with
  | ok a s => rfl
  | error e s => rfl

/-- A screen and a keyboard with the screen's transcript to be written before each read. -/
structure Desk (ι : Type) where
  screen : Headless
  input : ι
  written : String := ""

namespace Desk

def perform (c : Command) (d : Desk ι) : Desk ι := { d with screen := d.screen.perform c }

def read (act : String → HostAction ι α) : HostAction (Desk ι) α := fun d =>
  let shown (p : Prompted ι) : Desk ι := ⟨{ d.screen with transcript := p.pending }, p.input, p.written⟩
  match Prompted.readSeeing act { d with pending := d.screen.transcript } with
  | .ok a p => .ok a (shown p)
  | .error e p => .error e (shown p)

def drained (d : Desk ι) (input : ι) : Desk ι :=
  ⟨{ d.screen with transcript := "" }, input, d.written ++ d.screen.transcript⟩

theorem read_eq (act : String → HostAction ι α) (d : Desk ι) :
    d.read act = inState d.drained (act (d.written ++ d.screen.transcript) d.input) := by
  simp only [read, Prompted.readSeeing, Prompted.flush]
  cases act (d.written ++ d.screen.transcript) d.input with
  | ok a input => rfl
  | error e input => rfl

structure Keyboard (ι : Type) where
  line : String → HostAction ι String
  key : String → HostAction ι Char

inductive Event where
  | command (c : Command)
  | line
  | key

def Event.commands : Event → List Command
  | .command c => [c]
  | .line | .key => []

def take (keyboard : Keyboard ι) (d : Desk ι) : Event → Desk ι
  | .command c => d.perform c
  | .line => ending (d.read keyboard.line)
  | .key => ending (d.read keyboard.key)

def takeAll (keyboard : Keyboard ι) (d : Desk ι) (events : List Event) : Desk ι :=
  events.foldl (take keyboard) d

/-- The commands have led to the window, and their text is in the output and the transcript. -/
structure Shows (d : Desk ι) (cs : List Command) : Prop where
  text : d.written ++ d.screen.transcript = lowerText 0 cs
  window : d.screen.window = selected 0 cs

namespace Shows

variable {d : Desk ι} {cs : List Command}

theorem fresh (width height : UInt16) (input : ι) : Shows { screen := { width, height }, input } [] :=
  ⟨rfl, rfl⟩

theorem perform (h : d.Shows cs) (c : Command) : (d.perform c).Shows (cs ++ [c]) := by
  constructor
  · rw [Desk.perform, Headless.transcript_perform, ← String.append_assoc, h.text, h.window,
      Screen.lowerText_concat]
  · rw [Desk.perform, Headless.window_perform, h.window, Screen.selected_concat]

theorem drained (h : d.Shows cs) (input : ι) : (d.drained input).Shows cs :=
  ⟨String.append_empty.trans h.text, h.window⟩

theorem take (h : d.Shows cs) (keyboard : Keyboard ι) (event : Event) :
    (d.take keyboard event).Shows (cs ++ event.commands) := by
  cases event with
  | command c => exact h.perform c
  | line =>
    rw [Desk.take, read_eq, ending_inState, Event.commands, List.append_nil]
    exact h.drained _
  | key =>
    rw [Desk.take, read_eq, ending_inState, Event.commands, List.append_nil]
    exact h.drained _

theorem takeAll (h : d.Shows cs) (keyboard : Keyboard ι) (events : List Event) :
    (d.takeAll keyboard events).Shows (cs ++ events.flatMap Event.commands) := by
  induction events generalizing d cs with
  | nil => simpa [Desk.takeAll] using h
  | cons event events ih =>
    rw [List.flatMap_cons, ← List.append_assoc]
    exact ih (h.take keyboard event)

end Shows

end Desk

end ZMachine
