namespace ZMachine

def zeroPadded (width : Nat) (ds : List Char) : String :=
  String.ofList (List.replicate (width - ds.length) '0' ++ ds)

def hex (width n : Nat) : String :=
  zeroPadded width (Nat.toDigits 16 n)

def decimal (width n : Nat) : String :=
  zeroPadded width (Nat.toDigits 10 n)

def signed : Int → String
  | .ofNat n => decimal 1 n
  | .negSucc n => "-" ++ decimal 1 (n + 1)

def withSign (n : Int) : String :=
  if n < 0 then signed n else "+" ++ signed n

def digitValue (c : Char) : Nat :=
  if c.isDigit then c.toNat - '0'.toNat else c.toLower.toNat - 'a'.toNat + 10

def numeral (base : Nat) (digits : List Char) : Nat :=
  digits.foldl (fun n c => n * base + digitValue c) 0

end ZMachine
