namespace ZMachine.Toml

abbrev Scan := StateT (List Char) Option

namespace Scan

variable {α β : Type}

def char (p : Char → Bool) : Scan Char
  | [] => none
  | c :: rest => if p c then some (c, rest) else none

def span (p : Char → Bool) : Scan (List Char) := fun text =>
  some (text.takeWhile p, text.dropWhile p)

def span1 (p : Char → Bool) : Scan (List Char) := do return (← char p) :: (← span p)

def token (expected : String) : Scan Unit := expected.toList.forM fun c => do
  let _ ← char (· == c)

def upTo (p : Scan α) : Nat → Scan (List α)
  | 0 => pure []
  | n + 1 => (do return (← p) :: (← upTo p n)) <|> pure []

def many (p : Scan α) : Scan (List α) := fun text => upTo p text.length text

def sepBy1 (p : Scan α) (separator : Scan β) : Scan (List α) := do
  return (← p) :: (← many (separator *> p))

def finish : Scan Unit
  | [] => some ((), [])
  | _ :: _ => none

end Scan

end ZMachine.Toml
