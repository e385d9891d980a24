import ZMachine.Memory

namespace ZMachine

abbrev Zchar := Fin 32

instance Zchar.countNeZero : @NeZero Nat Zero.ofOfNat0 32 := ⟨by decide⟩

def packWord (last : Bool) (a b c : Zchar) : UInt16 :=
  UInt16.ofNat ((if last then 32768 else 0) + a.val * 1024 + b.val * 32 + c.val)

def pack : List Zchar → List UInt16
  | [] => []
  | [a] => [packWord true a 5 5]
  | [a, b] => [packWord true a b 5]
  | [a, b, c] => [packWord true a b c]
  | a :: b :: c :: rest => packWord false a b c :: pack rest

def endsText (w : UInt16) : Bool := 32768 ≤ w.toNat

def unpackWord (w : UInt16) : List Zchar :=
  [Fin.ofNat 32 (w.toNat / 1024), Fin.ofNat 32 (w.toNat / 32), Fin.ofNat 32 w.toNat]

def Memory.stringWordsFrom (m : Memory) (start : Nat) : Nat → Nat → Except Fault (List UInt16)
  | 0, _ => .error (.malformedText (.unterminated start))
  | left + 1, a => do
    let w ← m.word a
    if endsText w then return [w]
    return w :: (← m.stringWordsFrom start left (a + 2))

def Memory.stringWords (m : Memory) (a : Nat) : Except Fault (List UInt16) :=
  m.stringWordsFrom a maxStringWords a

def Memory.wordCount (m : Memory) (a : Nat) : Except Fault Nat :=
  List.length <$> m.stringWords a

end ZMachine
