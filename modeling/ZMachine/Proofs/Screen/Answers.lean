import ZMachine.Console
import ZMachine.Proofs.Action

namespace ZMachine

inductive Screen.Call where
  | command (c : Command)
  | cursor

open Screen (Call Command)

def converse {η : Type} [Host η] : List Call → HostAction η (List (UInt16 × UInt16))
  | [] => return []
  | .command c :: calls => do
    Host.perform c
    converse calls
  | .cursor :: calls => do
    let place ← Host.cursor
    let places ← converse calls
    return place :: places

/-- The window, the split and the cursor are the same. -/
structure Screen.InStep (s : Headless) (t : Terminal) : Prop where
  window : s.window = t.window
  upperLines : s.upperLines = t.upperLines
  line : s.line = t.line
  column : s.column = t.column

namespace Screen.InStep

variable {s : Headless} {t : Terminal}

theorem ite_upper (h : InStep s t) {p : Prop} [Decidable p] : InStep (if p then { s with upper := "" } else s) t := by
  split
  · exact ⟨h.window, h.upperLines, h.line, h.column⟩
  · exact h

theorem perform (h : InStep s t) (c : Command) : InStep (s.perform c) (t.perform c) := by
  cases c with
  | print text =>
    simp only [Headless.perform, Terminal.perform]
    by_cases hw : t.window = 1
    · rw [if_pos hw, if_pos (h.window.trans hw)]
      exact ⟨h.window, h.upperLines, h.line, congrArg (advance · text) h.column⟩
    · rw [if_neg hw, if_neg (h.window ▸ hw)]
      exact ⟨h.window, h.upperLines, h.line, h.column⟩
  | splitWindow lines => exact ⟨h.window, rfl, h.line, h.column⟩
  | setWindow window =>
    simp only [Headless.perform, Terminal.perform]
    split
    · exact ⟨rfl, h.upperLines, rfl, rfl⟩
    · exact ⟨rfl, h.upperLines, h.line, h.column⟩
  | eraseWindow window =>
    simp only [Headless.perform, Terminal.perform]
    apply ite_upper
    by_cases hu : window = -1
    · rw [if_pos hu, if_pos hu]
      exact ⟨rfl, rfl, h.line, h.column⟩
    · rw [if_neg hu, if_neg hu]
      exact h
  | setCursor line column => exact ⟨h.window, h.upperLines, rfl, rfl⟩
  | _ => exact ⟨h.window, h.upperLines, h.line, h.column⟩

theorem converse (h : InStep s t) (calls : List Call) (dice dice' : Dice) (input input' : List UInt8)
    (written written' : String) :
    ∃ answers s' t' text, InStep s' t' ∧
      ZMachine.converse calls (⟨.headless s, dice, input, written⟩ : Console) =
        .ok answers ⟨.headless s', dice, input, written⟩ ∧
      ZMachine.converse calls (⟨.terminal t, dice', input', written'⟩ : Console) =
        .ok answers ⟨.terminal t', dice', input', text⟩ := by
  induction calls generalizing s t written' with
  | nil => exact ⟨[], s, t, written', h, rfl, rfl⟩
  | cons call calls ih =>
    cases call with
    | command c => exact ih (h.perform c) (written' ++ t.output c)
    | cursor =>
      obtain ⟨answers, s', t', text, h', hs, ht⟩ := ih h written'
      have same : s.cursor = t.cursor := Prod.ext h.line h.column
      refine ⟨s.cursor :: answers, s', t', text, h', ?_, ?_⟩
      · exact bind_ok _ hs
      · rw [same]
        exact bind_ok _ ht

end Screen.InStep

/-- A fresh headless screen and a fresh terminal carry out every sequence of calls with the same answers, and
end with the same window selected and the same split. -/
theorem screens_answer_alike (calls : List Call) (width height width' height' : UInt16) (dice dice' : Dice)
    (input input' : List UInt8) (written written' : String) :
    ∃ (answers : List (UInt16 × UInt16)) (c d : Console) (s : Headless) (t : Terminal),
      converse calls (⟨.headless { width, height }, dice, input, written⟩ : Console) = .ok answers c ∧
      converse calls (⟨.terminal { width := width', height := height' }, dice', input', written'⟩ : Console) =
        .ok answers d ∧
      c.display = .headless s ∧ d.display = .terminal t ∧ s.window = t.window ∧ s.upperLines = t.upperLines := by
  have fresh : Screen.InStep { width, height } { width := width', height := height' } := ⟨rfl, rfl, rfl, rfl⟩
  obtain ⟨answers, s, t, text, h, hs, ht⟩ := fresh.converse calls dice dice' input input' written written'
  exact ⟨answers, _, _, s, t, hs, ht, rfl, rfl, h.window, h.upperLines⟩

end ZMachine
