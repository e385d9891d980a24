namespace ZMachine

/-- How a table came to be. -/
inductive Toml.Origin where
  /-- Written in braces: complete. -/
  | braces
  /-- Named by a header of its own. -/
  | header
  /-- Named by the header of a table inside it. -/
  | within
  /-- Named by a dotted key. -/
  | dotted
  deriving DecidableEq

inductive Toml where
  | string (text : String)
  | integer (value : Int)
  | float
  | boolean (value : Bool)
  | date
  | array (items : List Toml)
  | table (origin : Toml.Origin) (entries : List (String × Toml))
  /-- An array of tables by headers, and the one that its last header opened. -/
  | tables (earlier : List (List (String × Toml))) (last : List (String × Toml))

namespace Toml

abbrev Entries := List (String × Toml)

namespace Entries

def get? (name : String) : Entries → Option Toml
  | [] => none
  | (key, value) :: rest => if key = name then some value else get? name rest

def alter (name : String) (change : Option Toml → Option Toml) : Entries → Option Entries
  | [] => do return [(name, ← change none)]
  | (key, value) :: rest =>
    if key = name then do return (key, ← change (some value)) :: rest
    else do return (key, value) :: (← alter name change rest)

end Entries

def Origin.admits : (table path : Origin) → Bool
  | .braces, _ => false
  | .header, .dotted => false
  | _, _ => true

def descend (kind : Origin) (change : Origin → Entries → Option Entries) :
    List String → Origin → Entries → Option Entries
  | [], origin, entries => change origin entries
  | name :: names, _, entries =>
    entries.alter name fun
      | none => .table kind <$> descend kind change names kind []
      | some (.table origin inner) =>
        if origin.admits kind then .table origin <$> descend kind change names origin inner else none
      | some (.tables earlier last) =>
        .tables earlier <$> descend kind change names .header last
      | some _ => none

structure Key where
  path : List String := []
  name : String
  deriving DecidableEq

/-- Adds a new entry. A dotted key ends in a table that only dotted keys have named. -/
def addEntry (key : Key) (value : Toml) (origin : Origin) (entries : Entries) : Option Entries :=
  descend .dotted (fun reached inner =>
    if key.path = [] ∨ reached = .dotted then
      inner.alter key.name fun
        | none => some value
        | some _ => none
    else none) key.path origin entries

inductive Statement where
  /-- The header of a table. -/
  | header (key : Key)
  /-- The header of one more table of an array. -/
  | element (key : Key)
  | entry (key : Key) (value : Toml)

structure Draft where
  current : List String := []
  root : Entries := []

def Draft.add (d : Draft) : Statement → Option Draft
  | .header key => do
    let root ← descend .within (fun _ entries => entries.alter key.name fun
      | none => some (.table .header [])
      | some (.table .within inner) => some (.table .header inner)
      | some _ => none) key.path .header d.root
    return { current := key.path ++ [key.name], root }
  | .element key => do
    let root ← descend .within (fun _ entries => entries.alter key.name fun
      | none => some (.tables [] [])
      | some (.tables earlier last) => some (.tables (earlier ++ [last]) [])
      | some _ => none) key.path .header d.root
    return { current := key.path ++ [key.name], root }
  | .entry key value => do
    let root ← descend .within (addEntry key value) d.current .header d.root
    return { d with root }

def assemble (statements : List Statement) : Option Entries :=
  (·.root) <$> statements.foldlM Draft.add {}

end Toml

end ZMachine
