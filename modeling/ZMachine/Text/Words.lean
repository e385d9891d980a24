namespace ZMachine

/-- The words of `text` as positions and lengths. `i` is the position of the first byte and
`run` the length of the word that ends just before it. -/
def wordsFrom (separators : List UInt8) (i run : Nat) : List UInt8 → List (Nat × Nat)
  | [] => if run = 0 then [] else [(i - run, run)]
  | b :: rest =>
    if b = 32 ∨ b ∈ separators then
      (if run = 0 then [] else [(i - run, run)]) ++ (if b = 32 then [] else [(i, 1)]) ++
        wordsFrom separators (i + 1) 0 rest
    else wordsFrom separators (i + 1) (run + 1) rest

def splitWords (text separators : List UInt8) : List (Nat × Nat) :=
  wordsFrom separators 0 0 text

end ZMachine
