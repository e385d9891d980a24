import ZMachine.Screen.Command

namespace ZMachine

structure Headless where
  width : UInt16 := 80
  height : UInt16 := 24
  transcript : String := ""
  upper : String := ""
  statusLines : List String := []
  line : UInt16 := 1
  column : UInt16 := 1
  upperLines : UInt16 := 0
  window : UInt8 := 0
  style : UInt16 := 0
  deriving DecidableEq

namespace Headless

open Screen (Command)

def perform : Command → Headless → Headless
  | .print text, s =>
    if s.window = 1 then
      { s with upper := s.upper ++ text, column := Screen.advance s.column text }
    else { s with transcript := s.transcript ++ text }
  | .splitWindow lines, s => { s with upperLines := lines }
  | .setWindow window, s =>
    let s := { s with window }
    if window = 1 then { s with line := 1, column := 1 } else s
  | .eraseWindow window, s =>
    let s := if window = -1 then { s with upperLines := 0, window := 0 } else s
    if window < 0 ∨ window = 1 then { s with upper := "" } else s
  | .setCursor line column, s => { s with line, column }
  | .setTextStyle style, s => { s with style := if style = 0 then 0 else s.style ||| style }
  | .showStatus location right, s =>
    { s with statusLines := s.statusLines ++ [location ++ " " ++ right] }
  | .eraseLine, s | .setBufferMode _, s | .setColour _ _, s | .flush, s => s

def cursor (s : Headless) : UInt16 × UInt16 := (s.line, s.column)

def capabilities (s : Headless) : Screen.Capabilities := { columns := s.width, lines := s.height }

end Headless

end ZMachine
