import ZMachine.Header
import ZMachine.Text.Packing
import ZMachine.Text.Zscii

namespace ZMachine

instance alphabetsNeZero : @NeZero Nat Zero.ofOfNat0 3 := ⟨by decide⟩

structure Alphabets where
  lower : Vector UInt8 26
  upper : Vector UInt8 26
  punctuation : Vector UInt8 26
  deriving DecidableEq

namespace Alphabets

def standard : Alphabets where
  lower := Vector.ofFn fun i => UInt8.ofNat (97 + i.val)
  upper := Vector.ofFn fun i => UInt8.ofNat (65 + i.val)
  punctuation := #v[32, 10, 48, 49, 50, 51, 52, 53, 54, 55, 56, 57, 46, 44, 33, 63, 95, 35, 39, 34,
    47, 92, 45, 58, 40, 41]

def ofMemory (m : Memory) : Except Fault Alphabets :=
  let table := m.alphabetTable.toNat
  if table = 0 then .ok standard
  else do
    let lower ← m.block table 26
    let upper ← m.block (table + 26) 26
    let punctuation ← m.block (table + 52) 26
    return ⟨lower, upper, (punctuation.set 0 32).set 1 10⟩

def row (A : Alphabets) : Fin 3 → Vector UInt8 26
  | 0 => A.lower
  | 1 => A.upper
  | 2 => A.punctuation

def code (A : Alphabets) (r : Fin 3) (z : Zchar) : UInt8 :=
  have := z.isLt
  (A.row r)[z.val - 6]

/-- The character at a Z-character from 6; a code that prints nothing shows as a question mark. -/
def char (A : Alphabets) (r : Fin 3) (z : Zchar) : Char :=
  let code := A.code r z
  if code = 10 then '\n' else (Zscii.toChar? code.toUInt16).getD '?'

def places : List (Fin 3 × Zchar) :=
  let letters := (List.range 26).map fun i => Fin.ofNat 32 (i + 6)
  letters.map (0, ·) ++ letters.map (1, ·) ++ (letters.drop 2).map (2, ·)

def find? (A : Alphabets) (zscii : UInt16) : Option (Fin 3 × Zchar) :=
  places.find? fun p => (A.code p.1 p.2).toUInt16 = zscii

end Alphabets

end ZMachine
