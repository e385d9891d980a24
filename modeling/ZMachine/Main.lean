import ZMachine.CommandLine

namespace ZMachine.CommandLine

def osReason : IO.Error → String
  | .noFileOrDirectory _ code details | .inappropriateType _ code details
  | .permissionDenied _ code details | .invalidArgument _ code details =>
    let number := if code < 0x80000000 then code else 0 - code
    s!"{details.capitalize} (os error {number})"
  | e => toString e

def readFiles (paths : List String) : IO Files := do
  let found ← paths.mapM fun (path : String) => do
    match ← (IO.FS.readBinFile path).toBaseIO with
    | .ok bytes => return (path, Except.ok bytes.data)
    | .error e => return (path, .error (osReason e))
  return fun path => (found.lookup path).getD (.error "not read")

/-- The bytes through the next line feed, in reverse order. -/
partial def readLine (source : IO.FS.Stream) (taken : List UInt8) : IO (List UInt8) := do
  match (← source.read 1).toList with
  | [] => return taken
  | b :: _ => if b = 10 then return b :: taken else readLine source (b :: taken)

def emit (s : Machine Console) (shown : Nat) : IO (Machine Console) := do
  if s.host.written.isEmpty then return s
  let out ← IO.getStdout
  out.putStr (String.ofList (s.host.written.toList.drop shown))
  out.flush
  return { s with host := { s.host with written := "" } }

def provide (s : Machine Console) : IO (Machine Console × Nat) := do
  match Machine.step s with
  | .ok _ _ => return (s, 0)
  | .error e waiting =>
    if e.rootCause ≠ .host .inputClosed then return (s, 0)
    let shown := waiting.host.written.length
    let _ ← emit waiting 0
    let line ← readLine (← IO.getStdin) []
    return ({ s with host := { s.host with input := line.reverse } }, shown)

partial def play (limit : Option Nat) (s : Machine Console) : IO Report := do
  if s.quit || limit == some 0 then return report (Machine.runFor 0 s)
  let (s, shown) ← if awaitsInput s then provide s else pure (s, 0)
  match Machine.step s with
  | .ok _ s => play (limit.map (· - 1)) (← emit s shown)
  | .error e s => return report (.error e (← emit s shown))

end ZMachine.CommandLine

open ZMachine CommandLine in
def main (arguments : List String) : IO UInt32 := do
  let files ← readFiles (paths arguments)
  let random ← IO.getRandomBytes 8
  let entropy := random.toList.foldl (fun n b => n * 256 + b.toUInt64) 0
  let report ← match launch "zvm" arguments files entropy with
    | .error r => pure r
    | .ok l => play l.limit l.machine
  (← IO.getStdout).putStr report.output
  (← IO.getStderr).putStr report.errors
  return report.exit.toUInt32
