import ZMachine.Numeral
import ZMachine.Toml.Scan
import ZMachine.Toml.Value

namespace ZMachine.Toml.Scan

def isBlank (c : Char) : Bool := c == ' ' || c == '\t'

def blanks : Scan Unit := do
  let _ ← span isBlank

def newline : Scan Unit := token "\n" <|> token "\r\n"

def isLineChar (c : Char) : Bool := c == '\t' || (0x20 ≤ c.toNat && c.toNat != 0x7F)

def comment : Scan Unit := do
  let _ ← char (· == '#')
  let _ ← span isLineChar

def gap : Scan Unit := do
  blanks
  let _ ← many (optional comment *> newline *> blanks)

def isHexDigit (c : Char) : Bool :=
  c.isDigit || ('a' ≤ c && c ≤ 'f') || ('A' ≤ c && c ≤ 'F')

def exactly (p : Char → Bool) : Nat → Scan (List Char)
  | 0 => pure []
  | n + 1 => do return (← char p) :: (← exactly p n)

def codePoint (digits : Nat) : Scan Char := do
  let code := numeral 16 (← exactly isHexDigit digits)
  guard code.isValidChar
  return Char.ofNat code

def escape : Scan Char := do
  let _ ← char (· == '\\')
  match ← char fun _ => true with
  | 'b' => return '\x08'
  | 't' => return '\t'
  | 'n' => return '\n'
  | 'f' => return '\x0c'
  | 'r' => return '\r'
  | '"' => return '"'
  | '\\' => return '\\'
  | 'u' => codePoint 4
  | 'U' => codePoint 8
  | _ => failure

def isBasicChar (c : Char) : Bool := isLineChar c && c != '"' && c != '\\'

def isLiteralChar (c : Char) : Bool := isLineChar c && c != '\''

def basicString : Scan (List Char) :=
  char (· == '"') *> many (char isBasicChar <|> escape) <* char (· == '"')

def literalString : Scan (List Char) :=
  char (· == '\'') *> span isLiteralChar <* char (· == '\'')

def multiline (quote : Char) (content : Scan (List Char)) : Scan (List Char) := do
  token (String.ofList [quote, quote, quote])
  let _ ← optional newline
  let quotes : Scan (List Char) := do
    let run ← span1 (· == quote)
    guard (run.length < 3)
    return run
  let body ← many (content <|> quotes)
  let run ← span (· == quote)
  guard (3 ≤ run.length ∧ run.length ≤ 5)
  return body.flatten ++ run.drop 3

def lineJoin : Scan (List Char) := do
  let _ ← char (· == '\\')
  blanks
  newline
  let _ ← many (newline <|> (do let _ ← span1 isBlank))
  return []

def lineFeed : Scan (List Char) := do
  newline
  return ['\n']

def one (p : Scan Char) : Scan (List Char) := do return [← p]

def string : Scan (List Char) :=
  multiline '"' (one (char isBasicChar) <|> lineJoin <|> one escape <|> lineFeed) <|> basicString <|>
    multiline '\'' (span1 isLiteralChar <|> lineFeed) <|> literalString

def digits (p : Char → Bool) : Scan (List Char) := do
  return (← char p) :: (← many (char p <|> (char (· == '_') *> char p)))

def naturalDigits : Scan (List Char) := one (char (· == '0')) <|> digits Char.isDigit

def sign : Scan Bool := do
  let c ← optional (char fun c => c == '+' || c == '-')
  return c == some '-'

def isOctalDigit (c : Char) : Bool := '0' ≤ c && c ≤ '7'

def isBinaryDigit (c : Char) : Bool := c == '0' || c == '1'

def integer : Scan Int := do
  let based (lead : String) (p : Char → Bool) (base : Nat) : Scan Int := do
    token lead
    return numeral base (← digits p)
  let decimal : Scan Int := do
    let negative ← sign
    let n := numeral 10 (← naturalDigits)
    return if negative then -n else n
  let n ← based "0x" isHexDigit 16 <|> based "0o" isOctalDigit 8 <|> based "0b" isBinaryDigit 2 <|>
    decimal
  guard (Int64.minValue.toInt ≤ n ∧ n ≤ Int64.maxValue.toInt)
  return n

def floatLimit : Nat := (1 <<< 1024) - (1 <<< 970)

/-- Whether `mantissa` times ten to the `exponent` is too large for double precision. Far from
the limit the number of digits decides. -/
def overflows (mantissa : List Char) (exponent : Int) : Bool :=
  let mantissa := mantissa.dropWhile (· == '0')
  let places := mantissa.length + exponent
  if mantissa.isEmpty || places < 300 then false
  else if 400 < places then true
  else numeral 10 mantissa * Nat.pow 10 exponent.toNat ≥ floatLimit * Nat.pow 10 (-exponent).toNat

def exponent : Scan Int := do
  let _ ← char fun c => c == 'e' || c == 'E'
  let negative ← sign
  let n := numeral 10 (← digits Char.isDigit)
  return if negative then -n else n

/-- A number with a fraction or an exponent, or one of `inf` and `nan`. One that is too large is
refused if it is positive. -/
def float : Scan Unit := do
  let negative ← sign
  let finite : Scan Unit := do
    let whole ← naturalDigits
    let fraction ← optional (char (· == '.') *> digits Char.isDigit)
    let power ← optional exponent
    guard (fraction.isSome || power.isSome)
    let fraction := fraction.getD []
    guard (negative || !overflows (whole ++ fraction) (power.getD 0 - fraction.length))
  finite <|> token "inf" <|> token "nan"

def twoDigits (least greatest : Nat) : Scan Nat := do
  let n := numeral 10 (← exactly Char.isDigit 2)
  guard (least ≤ n ∧ n ≤ greatest)
  return n

def isLeapYear (year : Nat) : Bool := year % 4 == 0 && (year % 100 != 0 || year % 400 == 0)

def monthLength (year month : Nat) : Nat :=
  if month = 2 then (if isLeapYear year then 29 else 28)
  else if month = 4 ∨ month = 6 ∨ month = 9 ∨ month = 11 then 30
  else 31

def day : Scan Unit := do
  let year := numeral 10 (← exactly Char.isDigit 4)
  token "-"
  let month ← twoDigits 1 12
  token "-"
  let _ ← twoDigits 1 (monthLength year month)

def time : Scan Unit := do
  let _ ← twoDigits 0 23
  token ":"
  let _ ← twoDigits 0 59
  token ":"
  let _ ← twoDigits 0 60
  let _ ← optional (char (· == '.') *> span1 Char.isDigit)

def timeOffset : Scan Unit := do
  match ← char fun c => c == 'Z' || c == 'z' || c == '+' || c == '-' with
  | 'Z' | 'z' => return
  | _ =>
    let _ ← twoDigits 0 23
    token ":"
    let _ ← twoDigits 0 59

def date : Scan Unit :=
  (do
    day
    let _ ← optional (do
      let _ ← char fun c => c == 'T' || c == 't' || c == ' '
      time
      optional timeOffset)) <|> time

def boolean : Scan Bool := (token "true" *> pure true) <|> (token "false" *> pure false)

def scalar : Scan Toml :=
  (.string <$> String.ofList <$> string) <|> (.boolean <$> boolean) <|> (date *> pure .date) <|>
    (float *> pure .float) <|> (.integer <$> integer)

end ZMachine.Toml.Scan
