namespace ZMachine.Screen

inductive Command where
  | print (text : String)
  | splitWindow (lines : UInt16)
  | setWindow (window : UInt8)
  /-- A window by its number, -1 to clear and unsplit, -2 to clear. -/
  | eraseWindow (window : Int16)
  | eraseLine
  | setCursor (line column : UInt16)
  /-- A sum of 1 reverse, 2 bold, 4 italic and 8 fixed pitch; 0 ends all. -/
  | setTextStyle (style : UInt16)
  | setBufferMode (buffered : Bool)
  | setColour (foreground background : UInt16)
  | showStatus (location right : String)
  | flush
  deriving DecidableEq

structure Capabilities where
  columns : UInt16
  lines : UInt16
  colour : Bool := false
  characterWidth : UInt8 := 1
  lineHeight : UInt8 := 1
  deriving DecidableEq

def advance (column : UInt16) (text : String) : UInt16 :=
  UInt16.ofNat (min 65535 (column.toNat + text.length % 65536))

end ZMachine.Screen
