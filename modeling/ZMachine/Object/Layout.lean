import ZMachine.Header

/-!
The object table: default properties, then one entry of fixed size for each object from 1. An
entry holds the attributes, the three relations and the address of the property table.
-/

namespace ZMachine

structure Layout where
  entrySize : Nat
  attributeCount : Nat
  defaultProperties : Nat
  /-- Bytes of a parent, sibling or child field. -/
  relationWidth : Nat
  parentOffset : Nat
  propertyTableOffset : Nat
  deriving DecidableEq

def Layout.early : Layout := ⟨9, 32, 31, 1, 4, 7⟩

def Layout.late : Layout := ⟨14, 48, 63, 2, 6, 12⟩

structure ObjectTable where
  base : Nat
  version : UInt8
  deriving DecidableEq

def Memory.objects (m : Memory) : ObjectTable := ⟨m.objectTable.toNat, m.version⟩

inductive Relation where
  | parent | sibling | child
  deriving DecidableEq

def Relation.index : Relation → Nat
  | .parent => 0
  | .sibling => 1
  | .child => 2

namespace ObjectTable

def layout (t : ObjectTable) : Layout := if t.version ≤ 3 then .early else .late

/-- The entry of an object. Object 0 has none, and neither has one that no relation field could
name. -/
def entry (t : ObjectTable) (obj : UInt16) : Except Fault Nat :=
  if obj = 0 ∨ (t.layout.relationWidth = 1 ∧ 255 < obj) then .error (.invalidObject obj)
  else .ok (t.base + t.layout.defaultProperties * 2 + (obj.toNat - 1) * t.layout.entrySize)

end ObjectTable

end ZMachine
