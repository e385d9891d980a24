import ZMachine.CommandLine
import ZMachine.Proofs.Machine.Hosts
import ZMachine.Proofs.Machine.RunLimits
import ZMachine.Proofs.Screen.Transcript

namespace ZMachine

open Screen (Command lowerText)

/-- A host with the commands given to it. -/
structure Recording (η : Type) where
  host : η
  commands : List Command := []

namespace Recording

variable {η α : Type}

def onHost (act : HostAction η α) : HostAction (Recording η) α := fun r =>
  match act r.host with
  | .ok a host => .ok a { r with host }
  | .error e host => .error e { r with host }

instance [Host η] : Host (Recording η) where
  capabilities r := Host.capabilities r.host
  perform c := fun r => onHost (Host.perform c) { r with commands := r.commands ++ [c] }
  cursor := onHost Host.cursor
  readLine := onHost Host.readLine
  readKey := onHost Host.readKey
  roll range r :=
    let (v, host) := Host.roll range r.host
    (v, { r with host })
  seed n r := { r with host := Host.seed n r.host }
  reseed r := { r with host := Host.reseed r.host }

end Recording

namespace Console

variable {α : Type}

def ofDesk (dice : Dice) (d : Desk (List UInt8)) : Console := ⟨.headless d.screen, dice, d.input, d.written⟩

theorem read_ofDesk (act : HostAction (List UInt8) α) (dice : Dice) (d : Desk (List UInt8)) :
    (ofDesk dice d).read act = inState (ofDesk dice) (d.read fun _ => act) := by
  simp only [read, ofDesk, Prompted.read, Desk.read]
  cases Prompted.readSeeing (fun _ => act) { d with pending := d.screen.transcript } with
  | ok a p => rfl
  | error e p => rfl

inductive Recorded : Recording Console → Console → Prop
  | mk {dice : Dice} {d : Desk (List UInt8)} {commands : List Command} (shows : d.Shows commands) :
    Recorded ⟨ofDesk dice d, commands⟩ (ofDesk dice d)

namespace Recorded

theorem read (act : HostAction (List UInt8) α) :
    Paired Recorded (Recording.onHost (Console.read act)) (Console.read act) := by
  rintro _ _ ⟨shows⟩
  rw [Recording.onHost]
  dsimp only
  rw [read_ofDesk, Desk.read_eq]
  cases act _ with
  | ok a input => exact .ok ⟨shows.drained input⟩
  | error e input => exact .error ⟨shows.drained input⟩

theorem perform (c : Command) :
    Paired Recorded (Host.perform c : HostAction (Recording Console) Unit) (Host.perform c) := by
  rintro _ _ ⟨shows⟩
  exact .ok ⟨shows.perform c⟩

theorem answerAlike : Host.AnswerAlike Recorded where
  capabilities := by
    rintro _ _ ⟨shows⟩
    rfl
  perform := perform
  cursor := by
    rintro _ _ ⟨shows⟩
    exact .ok ⟨shows⟩
  readLine := read Pipe.readLine
  readKey := read Pipe.readKey
  roll := by
    rintro range _ _ ⟨shows⟩
    exact ⟨rfl, ⟨shows⟩⟩
  seed := by
    rintro n _ _ ⟨shows⟩
    exact ⟨shows⟩
  reseed := by
    rintro _ _ ⟨shows⟩
    exact ⟨shows⟩

end Recorded

end Console

namespace CommandLine

open Machine (seenBy seenEnd Beside)

variable {ε α : Type} {program story : String} {arguments rest : List String} {files : Files} {entropy : UInt64}
  {l : Launch} {r : Report}

theorem ok_of_mapError {x : Except ε α} {f : ε → Report} {a : α} (h : x.mapError f = .ok a) : x = .ok a := by
  cases x with
  | error e => cases h
  | ok b =>
    cases h
    rfl

theorem silent_of_mapError {x : Except ε α} {f : ε → Report} (hf : ∀ e, (f e).output = "")
    (h : x.mapError f = .error r) : r.output = "" := by
  cases x with
  | error e =>
    cases h
    exact hf e
  | ok a => cases h

theorem launch_host (h : launch program arguments files entropy = .ok l) :
    ∃ settings, l.machine.host = .ofSettings settings entropy := by
  cases arguments with
  | nil => cases h
  | cons story rest =>
    obtain ⟨invocation, -, h⟩ := ok_of_bind_except h
    obtain ⟨settings, -, h⟩ := ok_of_bind_except h
    obtain ⟨image, -, h⟩ := ok_of_bind_except h
    obtain ⟨machine, boots, h⟩ := ok_of_bind_except h
    obtain ⟨memory, -, boots⟩ := ok_of_bind_except (ok_of_mapError boots)
    obtain ⟨core, -, boots⟩ := ok_of_bind_except boots
    cases boots
    cases h
    exact ⟨settings, rfl⟩

theorem launch_silent (h : launch program (story :: rest) files entropy = .error r) : r.output = "" := by
  obtain h | ⟨invocation, -, h⟩ := error_of_bind_except h
  · exact silent_of_mapError (fun _ => rfl) h
  obtain h | ⟨settings, -, h⟩ := error_of_bind_except h
  · exact silent_of_mapError (fun _ => rfl) h
  obtain h | ⟨image, -, h⟩ := error_of_bind_except h
  · exact silent_of_mapError (fun _ => rfl) h
  obtain h | ⟨machine, -, h⟩ := error_of_bind_except h
  · exact silent_of_mapError (fun _ => rfl) h
  · cases h

theorem output_report (result : EStateM.Result Failure (Machine Console) Unit) :
    (report result).output = (ending result).host.output := by
  cases result with
  | ok _ s => rfl
  | error e s =>
    rw [report]
    split <;> rfl

def Launch.recorded (l : Launch) (input : List UInt8) :
    EStateM.Result Failure (Machine (Recording Console)) Unit :=
  Machine.run l.limit (l.machine.seenBy fun host => { host := { host with input } })

theorem headless_of_launch {screen : Headless} (h : launch program arguments files entropy = .ok l)
    (headless : l.machine.host.display = .headless screen) (input : List UInt8) :
    Console.Recorded { host := { l.machine.host with input } } { l.machine.host with input } := by
  obtain ⟨settings, hhost⟩ := launch_host h
  rw [hhost] at headless ⊢
  rw [Console.ofSettings] at headless ⊢
  cases hkind : settings.display with
  | terminal =>
    rw [hkind] at headless
    cases headless
  | headless => exact ⟨Desk.Shows.fresh settings.screenWidth settings.screenHeight input⟩

theorem seenEnd_of_matches {x : EStateM.Result Failure (Machine (Recording Console)) Unit}
    {y : EStateM.Result Failure (Machine Console) Unit} (h : Matches (Beside Console.Recorded) x y) :
    seenEnd Recording.host x = seenEnd id y := by
  obtain ⟨⟨⟨_⟩⟩⟩ | ⟨⟨⟨_⟩⟩⟩ := h
  · rfl
  · rfl

theorem output_of_matches {x : EStateM.Result Failure (Machine (Recording Console)) Unit}
    {y : EStateM.Result Failure (Machine Console) Unit} (h : Matches (Beside Console.Recorded) x y) :
    (report y).output = lowerText 0 (ending x).host.commands := by
  rw [output_report]
  obtain ⟨⟨⟨shows⟩⟩⟩ | ⟨⟨⟨shows⟩⟩⟩ := h
  · exact shows.text
  · exact shows.text

/-- Prints and reads in any order hand over all that is printed to the lower window, once and before the next
read. So standard output gets what the story prints there, however the run ends. -/
theorem headless_output_once :
    (∀ {ι : Type} (keyboard : Desk.Keyboard ι) (input : ι) (width height : UInt16) (events : List Desk.Event),
      let desk := Desk.takeAll keyboard { screen := { width, height }, input } events
      let printed := lowerText 0 (events.flatMap Desk.Event.commands)
      desk.written ++ desk.screen.transcript = printed ∧
        ∀ {α : Type} (act : String → HostAction ι α),
          desk.read act = inState desk.drained (act printed desk.input)) ∧
    ∀ (program story : String) (rest : List String) (files : Files) (input : List UInt8) (entropy : UInt64),
      (∀ r, launch program (story :: rest) files entropy = .error r →
        (run program (story :: rest) files input entropy).output = "") ∧
      ∀ l screen, launch program (story :: rest) files entropy = .ok l →
        l.machine.host.display = .headless screen →
        seenEnd Recording.host (l.recorded input) =
          seenEnd id (Machine.run l.limit { l.machine with host := { l.machine.host with input } }) ∧
        (run program (story :: rest) files input entropy).output =
          lowerText 0 (ending (l.recorded input)).host.commands := by
  refine ⟨fun keyboard input width height events => ?_,
    fun program story rest files input entropy => ⟨?_, ?_⟩⟩
  · have shows := (Desk.Shows.fresh width height input).takeAll keyboard events
    rw [List.nil_append] at shows
    refine ⟨shows.text, fun act => ?_⟩
    rw [Desk.read_eq, shows.text]
  · intro r h
    rw [run, h]
    exact launch_silent h
  · intro l screen h headless
    have paired : Matches (Beside Console.Recorded) (l.recorded input) (Machine.run l.limit _) :=
      Machine.run_paired Console.Recorded.answerAlike l.limit _ _ ⟨headless_of_launch h headless input⟩
    refine ⟨seenEnd_of_matches paired, ?_⟩
    rw [run, h]
    exact output_of_matches paired

def promptStory : Array UInt8 :=
  -- Prints in both windows, then waits for a key.
  #[5, 0, 0, 0, 0, 0, 0, 0x40] ++ Array.replicate 56 0 ++
    #[0xE5, 0x7F, 0x3E, 0xEB, 0x7F, 1, 0xE5, 0x7F, 0x55, 0xEB, 0x7F, 0, 0xE5, 0x7F, 0x3F, 0xF6, 0x7F, 1, 0]

def headlessToml : String := "display = \"headless\"\n"

def promptFiles : Files := fun path =>
  if path = "prompt.z5" then .ok promptStory
  else if path = "zvm.toml" then .ok headlessToml.toUTF8.data
  else .error "No such file or directory (os error 2)"

def promptLaunch : Launch where
  machine :=
    let memory : Memory := ⟨promptStory, by decide, by decide⟩
    .start ⟨memory, memory, [{ pc := 0x40 }]⟩ (.ofSettings { display := .headless } 0)
  limit := none

theorem loadSettings_of_text {path text : String} (h : files path = .ok text.toUTF8.data) :
    loadSettings files path = Settings.parse text := by
  have decodes : String.fromUTF8? text.toUTF8 = some text := by
    simp only [String.fromUTF8?, String.toUTF8_eq_toByteArray, dif_pos text.isValidUTF8]
    rfl
  simp only [loadSettings, h, decodes]

theorem launch_prompt :
    launch "zvm" ["prompt.z5", "--config", "zvm.toml"] promptFiles 0 = .ok promptLaunch := by
  have invocation : Invocation.options { story := "prompt.z5" } ["--config", "zvm.toml"] =
      .ok { story := "prompt.z5", settingsFile := some "zvm.toml" } := rfl
  have parsed : Settings.parse headlessToml = .ok { display := .headless } :=
    ok_of_toOption (by decide +kernel)
  have loaded : loadSettings promptFiles "zvm.toml" = .ok { display := .headless } :=
    (loadSettings_of_text rfl).trans parsed
  have settings : Invocation.settings { story := "prompt.z5", settingsFile := some "zvm.toml" } promptFiles =
      .ok { display := .headless } := by
    simp only [Invocation.settings, loaded]
    rfl
  have image : promptFiles "prompt.z5" = .ok promptStory := rfl
  have boots : Machine.boot promptStory (.ofSettings { display := .headless } 0) = .ok promptLaunch.machine := rfl
  simp only [launch, invocation, settings, image, boots, Except.mapError, bind, Except.bind]
  rfl

theorem headless_output_once_prompt :
    (∃ r, launch "zvm" ["missing.z5"] promptFiles 0 = .error r ∧
      (run "zvm" ["missing.z5"] promptFiles [] 0).output = "") ∧
    launch "zvm" ["prompt.z5", "--config", "zvm.toml"] promptFiles 0 = .ok promptLaunch ∧
    promptLaunch.machine.host.display = .headless { width := 80, height := 25 } ∧
    (run "zvm" ["prompt.z5", "--config", "zvm.toml"] promptFiles [] 0).output = ">?" := by
  obtain ⟨-, outputs⟩ := headless_output_once
  have missing : ∃ r, launch "zvm" ["missing.z5"] promptFiles 0 = .error r := ⟨_, rfl⟩
  obtain ⟨r, hr⟩ := missing
  have headless : promptLaunch.machine.host.display = .headless { width := 80, height := 25 } := rfl
  refine ⟨⟨r, hr, (outputs _ _ _ _ _ _).1 r hr⟩, launch_prompt, headless, ?_⟩
  rw [((outputs _ _ _ _ _ _).2 _ _ launch_prompt headless).2]
  decide +kernel

end CommandLine

end ZMachine
