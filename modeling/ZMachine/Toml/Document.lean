import ZMachine.Toml.Scalar

namespace ZMachine.Toml

namespace Scan

/-- Arrays and tables in braces are nested less deeply than this, and a key has fewer parts. -/
def depthLimit : Nat := 80

def isBareKeyChar (c : Char) : Bool := c.isAlphanum || c == '-' || c == '_'

def simpleKey : Scan String :=
  String.ofList <$> (basicString <|> literalString <|> span1 isBareKeyChar)

def key : Scan Key := do
  let names ← sepBy1 (blanks *> simpleKey <* blanks) (token ".")
  guard (names.length < depthLimit)
  match names.getLast? with
  | none => failure
  | some name => return { path := names.dropLast, name }

def pair (value : Scan Toml) : Scan (Key × Toml) := do
  let k ← key
  token "="
  blanks
  return (k, ← value)

def array (value : Scan Toml) : Scan Toml := do
  token "["
  let items ← optional (sepBy1 (gap *> value <* gap) (token ",") <* optional (token ","))
  gap
  token "]"
  return .array (items.getD [])

def braces (value : Scan Toml) : Scan Toml := do
  token "\x7b"
  let pairs ← optional (sepBy1 (pair value <* blanks) (token ","))
  blanks
  token "\x7d"
  let entries ← (pairs.getD []).foldlM (fun entries (k, v) => addEntry k v .braces entries) []
  return .table .braces entries

def value : Nat → Scan Toml
  | 0 => scalar
  | depth + 1 => array (value depth) <|> braces (value depth) <|> scalar

def lineEnd : Scan Unit := do
  blanks
  let _ ← optional comment
  newline <|> finish

def statement : Scan Statement :=
  (.element <$> (token "[[" *> key <* token "]]")) <|>
    (.header <$> (token "[" *> key <* token "]")) <|>
    ((fun (k, v) => .entry k v) <$> pair (value (depthLimit - 1)))

def line : Scan (Option Statement) := do
  blanks
  (newline *> pure none) <|> (comment *> lineEnd *> pure none) <|> (some <$> statement <* lineEnd)

def document : Scan (List Statement) := do
  let _ ← optional (token "\uFEFF")
  let lines ← many line
  blanks
  finish
  return lines.filterMap id

end Scan

def parse (text : String) : Option Entries := do
  assemble (← Scan.document.run' text.toList)

end ZMachine.Toml
