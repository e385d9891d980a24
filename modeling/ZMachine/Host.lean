import ZMachine.Fault
import ZMachine.Screen.Command

/-!
The world around a story: a screen, a keyboard and dice. A host is any state with these
operations; all but the dice may fail, and a failure keeps the state reached.
-/

namespace ZMachine

abbrev HostAction (η α : Type) := EStateM HostFailure η α

class Host (η : Type) where
  capabilities : η → Screen.Capabilities
  perform : Screen.Command → HostAction η Unit
  /-- Line and column of the upper window's cursor, from 1. -/
  cursor : HostAction η (UInt16 × UInt16)
  /-- A line without its end. -/
  readLine : HostAction η String
  readKey : HostAction η Char
  /-- A value from 1 to the range. -/
  roll : UInt16 → η → UInt16 × η
  seed : UInt64 → η → η
  reseed : η → η

end ZMachine
