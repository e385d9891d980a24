import ZMachine.Text.Alphabet
import ZMachine.Text.LowerCase

namespace ZMachine

def zchars (A : Alphabets) (c : Char) : List Zchar :=
  if c = ' ' then [0]
  else if c = '\n' then [5, 7]
  else
    match Zscii.ofChar? c with
    | none => []
    | some code =>
      match A.find? code with
      | some (0, z) => [z]
      | some (1, z) => [4, z]
      | some (2, z) => [5, z]
      | none => [5, 6, Fin.ofNat 32 (code.toNat / 32), Fin.ofNat 32 code.toNat]

def encodeString (A : Alphabets) (text : List Char) : List UInt16 :=
  match text.flatMap (zchars A) with
  | [] => pack [5]
  | zs => pack zs

def resolution (version : UInt8) : Nat := if version ≤ 3 then 6 else 9

/-- Adds the Z-characters of one character after the other, until there are `n` or more. -/
def zcharsUpTo (A : Alphabets) (n : Nat) : List Zchar → List Char → List Zchar
  | zs, [] => zs
  | zs, c :: rest => if n ≤ zs.length then zs else zcharsUpTo A n (zs ++ zchars A c) rest

/-- Cuts off what is beyond `n` Z-characters, or fills up with 5s. -/
def resize (n : Nat) (zs : List Zchar) : List Zchar :=
  zs.take n ++ List.replicate (n - zs.length) 5

def encodeWord (A : Alphabets) (version : UInt8) (text : List Char) : List UInt16 :=
  let n := resolution version
  pack (resize n (zcharsUpTo A n [] (text.flatMap lowerCase)))

end ZMachine
