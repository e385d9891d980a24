import ZMachine.Object.Property
import ZMachine.Object.Tree

namespace ZMachine

structure ObjectSnapshot where
  number : UInt16
  /-- The attributes as one number, the last attribute its least significant bit. -/
  attributes : Nat
  attributeCount : Nat
  parent : UInt16
  sibling : UInt16
  child : UInt16
  propertyTable : Nat
  properties : List PropertyRecord
  deriving DecidableEq

def ObjectTable.snapshot (t : ObjectTable) (m : Memory) (obj : UInt16) :
    Except Fault ObjectSnapshot := do
  let a ← t.entry obj
  let first := (← m.dword a).toNat
  let attributes ←
    if 32 < t.layout.attributeCount then do
      pure (first * 65536 + (← m.word (a + 4)).toNat)
    else pure first
  return {
    number := obj
    attributes
    attributeCount := t.layout.attributeCount
    parent := ← t.parent m obj
    sibling := ← t.sibling m obj
    child := ← t.child m obj
    propertyTable := ← t.propertyTable m obj
    properties := ← t.properties m obj }

namespace ObjectSnapshot

def hasAttribute (o : ObjectSnapshot) (attr : Nat) : Bool :=
  attr < o.attributeCount && o.attributes.testBit (o.attributeCount - 1 - attr)

def text (o : ObjectSnapshot) : String :=
  let attributes := (List.range o.attributeCount).filter o.hasAttribute
  s!"Object {o.number}: attributes" ++ String.join (attributes.map fun n => s!" {n}") ++
  s!"\n  parent {o.parent} sibling {o.sibling} child {o.child}\n" ++
  s!"  properties at {hex 4 o.propertyTable}:" ++
  String.join (o.properties.map fun r => s!" [{r.number}:{r.size}]")

end ObjectSnapshot

end ZMachine
