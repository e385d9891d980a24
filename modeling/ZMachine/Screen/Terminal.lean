import ZMachine.Numeral
import ZMachine.Screen.Command

namespace ZMachine

structure Terminal where
  width : UInt16 := 80
  height : UInt16 := 25
  upperLines : UInt16 := 0
  window : UInt8 := 0
  /-- Cursor of the upper window. -/
  line : UInt16 := 1
  column : UInt16 := 1
  deriving DecidableEq

namespace Terminal

open Screen (Command)

def perform : Command → Terminal → Terminal
  | .print text, t =>
    if t.window = 1 then { t with column := Screen.advance t.column text } else t
  | .splitWindow lines, t => { t with upperLines := lines }
  | .setWindow window, t =>
    if window = 1 then { t with window, line := 1, column := 1 } else { t with window }
  | .eraseWindow window, t =>
    if window = -1 then { t with upperLines := 0, window := 0 } else t
  | .setCursor line column, t => { t with line, column }
  | .eraseLine, t | .setTextStyle _, t | .setBufferMode _, t | .setColour _ _, t
  | .showStatus _ _, t | .flush, t => t

def cursor (t : Terminal) : UInt16 × UInt16 := (t.line, t.column)

def capabilities (t : Terminal) : Screen.Capabilities :=
  { columns := t.width, lines := t.height, colour := true }

def savePosition : String := "\x1b7"
def restorePosition : String := "\x1b8"
def moveTo (line column : Nat) : String := s!"\x1b[{line + 1};{column + 1}H"
def clearAll : String := "\x1b[2J"
def clearLine : String := "\x1b[2K"
def clearToEnd : String := "\x1b[K"
def plain : String := "\x1b[0m"
def bold : String := "\x1b[1m"
def italic : String := "\x1b[3m"
def reverse : String := "\x1b[7m"

def colour? (colour : UInt16) : Option Nat :=
  if 2 ≤ colour ∧ colour ≤ 8 then some (colour.toNat - 2)
  else if colour = 9 then some 15
  else none

def lineBreaks (text : String) : String :=
  String.ofList (text.toList.flatMap fun c => if c = '\n' then ['\r', '\n'] else [c])

def statusLine (width : Nat) (location right : List Char) : List Char :=
  let left := location.take (width - (right.length + 2))
  ' ' :: left ++ List.replicate (width - (left.length + right.length + 1)) ' ' ++ right

def output (t : Terminal) : Command → String
  | .print text =>
    if t.window = 1 then
      savePosition ++ moveTo (t.line.toNat - 1) (t.column.toNat - 1) ++ text ++ restorePosition
    else lineBreaks text
  | .eraseWindow window =>
    if window = -1 ∨ window = -2 then clearAll ++ moveTo 0 0
    else if window = 1 then
      savePosition ++
        String.join ((List.range t.upperLines.toNat).map fun row => moveTo row 0 ++ clearLine) ++
        restorePosition
    else ""
  | .eraseLine => clearToEnd
  | .setTextStyle style =>
    let style := style.toNat
    (if style = 0 then plain else "") ++ (if style.testBit 0 then reverse else "") ++
      (if style.testBit 1 then bold else "") ++ (if style.testBit 2 then italic else "")
  | .setColour foreground background =>
    (if foreground = 1 ∨ background = 1 then plain else "") ++
      ((colour? foreground).map fun n => s!"\x1b[38;5;{n}m").getD "" ++
      ((colour? background).map fun n => s!"\x1b[48;5;{n}m").getD ""
  | .showStatus location right =>
    savePosition ++ moveTo 0 0 ++ reverse ++
      String.ofList (statusLine t.width.toNat location.toList right.toList) ++ plain ++
      restorePosition
  | .splitWindow _ | .setWindow _ | .setCursor _ _ | .setBufferMode _ | .flush => ""

end Terminal

end ZMachine
