import ZMachine.Host

namespace ZMachine

def keyOfLine (line : String) : Char := line.toList.headD '\n'

namespace Script

def readLine : HostAction (List String) String
  | [] => .error .inputClosed []
  | line :: rest => .ok line rest

def readKey : HostAction (List String) Char := keyOfLine <$> readLine

end Script

def trimLineEnd (text : String) : String :=
  String.ofList (text.toList.reverse.dropWhile fun c => c = '\n' ∨ c = '\r').reverse

def invalidUtf8 : String := "stream did not contain valid UTF-8"

namespace Pipe

def splitLine : List UInt8 → List UInt8 × List UInt8
  | [] => ([], [])
  | b :: rest =>
    if b = 10 then ([b], rest)
    else
      let (line, rest) := splitLine rest
      (b :: line, rest)

def readLine : HostAction (List UInt8) String
  | [] => .error .inputClosed []
  | b :: bs =>
    let (line, rest) := splitLine (b :: bs)
    match String.fromUTF8? ⟨line.toArray⟩ with
    | none => .error (.io invalidUtf8) rest
    | some text => .ok (trimLineEnd text) rest

def readKey : HostAction (List UInt8) Char := keyOfLine <$> readLine

end Pipe

/-- A source of input with text that is still to be written. -/
structure Prompted (ι : Type) where
  input : ι
  pending : String := ""
  written : String := ""

namespace Prompted

variable {ι α : Type}

def print (text : String) (p : Prompted ι) : Prompted ι := { p with pending := p.pending ++ text }

def flush (p : Prompted ι) : Prompted ι :=
  { p with pending := "", written := p.written ++ p.pending }

def readSeeing (act : String → HostAction ι α) : HostAction (Prompted ι) α := fun p =>
  let p := p.flush
  match act p.written p.input with
  | .ok a input => .ok a { p with input }
  | .error e input => .error e { p with input }

def read (act : HostAction ι α) : HostAction (Prompted ι) α := readSeeing fun _ => act

end Prompted

end ZMachine
