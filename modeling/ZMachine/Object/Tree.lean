import ZMachine.Object.Layout

namespace ZMachine.ObjectTable

variable (t : ObjectTable)

def relationAddress (obj : UInt16) (r : Relation) : Except Fault Nat := do
  return (← t.entry obj) + t.layout.parentOffset + r.index * t.layout.relationWidth

def relation (m : Memory) (obj : UInt16) (r : Relation) : Except Fault UInt16 := do
  let a ← t.relationAddress obj r
  if t.layout.relationWidth = 1 then UInt8.toUInt16 <$> m.byte a else m.word a

def setRelation (obj : UInt16) (r : Relation) (value : UInt16) : Action Memory Unit := do
  let a ← Action.reading fun _ => t.relationAddress obj r
  if t.layout.relationWidth = 1 then Memory.setByte a value.toUInt8 else Memory.setWord a value

def parent (m : Memory) (obj : UInt16) : Except Fault UInt16 := t.relation m obj .parent

def sibling (m : Memory) (obj : UInt16) : Except Fault UInt16 := t.relation m obj .sibling

def child (m : Memory) (obj : UInt16) : Except Fault UInt16 := t.relation m obj .child

/-- The object whose next sibling is `obj`, looked for from `current` along the children of
`parent`; no chain of distinct objects is longer than the first argument. -/
def elderSibling (m : Memory) (parent obj : UInt16) : Nat → UInt16 → Except Fault UInt16
  | 0, _ => .error (.malformedTree (.notAChild obj parent))
  | left + 1, current =>
    if current = 0 then .error (.malformedTree (.notAChild obj parent))
    else do
      let next ← t.sibling m current
      if next = obj then return current
      elderSibling m parent obj left next

def remove (obj : UInt16) : Action Memory Unit := do
  let parent ← Action.reading (t.parent · obj)
  if parent = 0 then return
  let sibling ← Action.reading (t.sibling · obj)
  let first ← Action.reading (t.child · parent)
  if first = obj then
    t.setRelation parent .child sibling
  else
    let elder ← Action.reading (t.elderSibling · parent obj 65535 first)
    t.setRelation elder .sibling sibling
  t.setRelation obj .parent 0
  t.setRelation obj .sibling 0

def insert (obj dest : UInt16) : Action Memory Unit := do
  if obj = dest then throw (.malformedTree (.intoItself obj))
  let _ ← Action.reading fun _ => t.entry dest
  t.remove obj
  let first ← Action.reading (t.child · dest)
  t.setRelation obj .sibling first
  t.setRelation obj .parent dest
  t.setRelation dest .child obj

end ZMachine.ObjectTable
