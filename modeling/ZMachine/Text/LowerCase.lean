/-!
Lower case, as far as ZSCII can tell: a character whose lower-case form has a code is mapped to
that form, and every other character stays. A character of the second kind that had a different
lower-case form has no code in either, so wherever only codes count nothing is lost.
-/

namespace ZMachine

def lowerCase (c : Char) : List Char :=
  let n := c.toNat
  if 0x41 ≤ n ∧ n ≤ 0x5A then [Char.ofNat (n + 0x20)]
  else if 0xC0 ≤ n ∧ n ≤ 0xDE ∧ n ≠ 0xD7 then [Char.ofNat (n + 0x20)]
  else if n = 0x130 then ['i', Char.ofNat 0x307]
  else if n = 0x152 then ['œ']
  else if n = 0x178 then ['ÿ']
  else if n = 0x1E9E then ['ß']
  else if n = 0x212A then ['k']
  else if n = 0x212B then ['å']
  else [c]

end ZMachine
