namespace ZMachine.ChaCha

abbrev Key := Vector UInt32 8

abbrev Block := Vector UInt32 16

def rotateLeft (x n : UInt32) : UInt32 := (x <<< n) ||| (x >>> (32 - n))

def rotateRight (x n : UInt32) : UInt32 := (x >>> n) ||| (x <<< (32 - n))

def quarterRound (a b c d : Fin 16) (s : Block) : Block :=
  let xa := s[a] + s[b]
  let xd := rotateLeft (s[d] ^^^ xa) 16
  let xc := s[c] + xd
  let xb := rotateLeft (s[b] ^^^ xc) 12
  let ya := xa + xb
  let yd := rotateLeft (xd ^^^ ya) 8
  let yc := xc + yd
  let yb := rotateLeft (xb ^^^ yc) 7
  (((s.set a ya).set b yb).set c yc).set d yd

def doubleRound (s : Block) : Block :=
  let s := quarterRound 0 4 8 12 s
  let s := quarterRound 1 5 9 13 s
  let s := quarterRound 2 6 10 14 s
  let s := quarterRound 3 7 11 15 s
  let s := quarterRound 0 5 10 15 s
  let s := quarterRound 1 6 11 12 s
  let s := quarterRound 2 7 8 13 s
  quarterRound 3 4 9 14 s

def doubleRounds : Nat → Block → Block
  | 0, s => s
  | n + 1, s => doubleRounds n (doubleRound s)

def start (key : Key) (counter : Nat) : Block :=
  #v[0x61707865, 0x3320646e, 0x79622d32, 0x6b206574, key[0], key[1], key[2], key[3], key[4],
    key[5], key[6], key[7], UInt32.ofNat counter, UInt32.ofNat (counter / UInt32.size), 0, 0]

def block (key : Key) (counter : Nat) : Block :=
  let s := start key counter
  Vector.zipWith (· + ·) s (doubleRounds 6 s)

def advance (state : UInt64) : UInt64 := state * 6364136223846793005 + 11634580027462260723

def permute (state : UInt64) : UInt32 :=
  rotateRight (((state >>> 18) ^^^ state) >>> 27).toUInt32 (state >>> 59).toUInt32

def keyWords : Nat → UInt64 → List UInt32
  | 0, _ => []
  | n + 1, state => permute (advance state) :: keyWords n (advance state)

theorem length_keyWords (n : Nat) (state : UInt64) : (keyWords n state).length = n := by
  induction n generalizing state with
  | zero => rfl
  | succ n ih => simp [keyWords, ih]

def key (seed : UInt64) : Key := ⟨(keyWords 8 seed).toArray, by simp [length_keyWords]⟩

def word (key : Key) (i : Nat) : UInt32 :=
  have := Nat.mod_lt i (show 16 > 0 by decide)
  (block key (i / 16))[i % 16]

end ZMachine.ChaCha
