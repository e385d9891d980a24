import ZMachine.Text.Alphabet

/-!
From Z-characters to text. The meaning of a Z-character hangs on what went before it: a shift
holds for one character, 1 to 3 and the code that follows name an abbreviation, and 6 after the
second shift starts a ten-bit code. An abbreviation may not hold another one.
-/

namespace ZMachine

inductive TextMode where
  | character (alphabet : Fin 3)
  | abbreviation (bank : Zchar)
  | codeTop
  | codeBottom (top : Zchar)
  deriving DecidableEq

/-- Text of Z-characters. `expand` gives the text of an abbreviation by its number, or is the
fault that naming one raises. -/
def spell (A : Alphabets) (expand : Except Fault (Nat → Except Fault (List Char))) :
    TextMode → List Zchar → Except Fault (List Char)
  | _, [] => .ok []
  | .abbreviation bank, z :: zs => do
    let text ← (← expand) (32 * (bank.val - 1) + z.val)
    return text ++ (← spell A expand (.character 0) zs)
  | .codeTop, z :: zs => spell A expand (.codeBottom z) zs
  | .codeBottom top, z :: zs => do
    let char := Zscii.toChar? (UInt16.ofNat (top.val * 32 + z.val))
    return char.toList ++ (← spell A expand (.character 0) zs)
  | .character r, z :: zs =>
    if z = 0 then do return ' ' :: (← spell A expand (.character 0) zs)
    else if z ≤ 3 then do
      let _ ← expand
      spell A expand (.abbreviation z) zs
    else if z = 4 then spell A expand (.character 1) zs
    else if z = 5 then spell A expand (.character 2) zs
    else if z = 6 ∧ r = 2 then spell A expand .codeTop zs
    else do return A.char r z :: (← spell A expand (.character 0) zs)

namespace Memory

def spellAt (m : Memory) (A : Alphabets) (a : Nat)
    (expand : Except Fault (Nat → Except Fault (List Char))) : Except Fault (List Char) := do
  spell A expand (.character 0) ((← m.stringWords a).flatMap unpackWord)

def abbreviation (m : Memory) (A : Alphabets) (n : Nat) : Except Fault (List Char) := do
  let a := (← m.word (m.abbreviationsTable.toNat + 2 * n)).toNat * 2
  m.spellAt A a (.error (.malformedText (.nestedAbbreviation a)))

def text (m : Memory) (a : Nat) : Except Fault (List Char) := do
  let A ← Alphabets.ofMemory m
  m.spellAt A a (.ok (m.abbreviation A))

end Memory

end ZMachine
