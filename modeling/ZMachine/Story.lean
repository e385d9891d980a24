import ZMachine.Header
import ZMachine.Text.Encode

/-!
Small stories, assembled from parts. Every image has the same size and the same tables at the same
places; code is laid down from one place on, and property tables from another. Bytes that would
fall outside the image are left out.
-/

namespace ZMachine.Story

def globals : Nat := 0x0100
def abbreviations : Nat := 0x02E0
def objectTable : Nat := 0x0400
def propertyArea : Nat := 0x0900
def dictionary : Nat := 0x1000
def staticBase : Nat := 0x1800
def codeStart : Nat := 0x2000
def imageSize : Nat := 0x8000

structure Relations where
  parent : UInt16
  sibling : UInt16
  child : UInt16
  deriving DecidableEq

abbrev PropertyData := UInt8 × List UInt8

inductive Part where
  /-- Instructions, behind those laid down before. -/
  | code (bytes : List UInt8)
  | bytes (address : Nat) (bytes : List UInt8)
  | words (address : Nat) (words : List UInt16)
  | routine (address : Nat) (locals : List UInt16) (body : List UInt8)
  | string (address : Nat) (text : String)
  | global (index : UInt8) (value : UInt16)
  | abbreviation (index : UInt16) (address : Nat)
  | defaultProperty (property : UInt8) (value : UInt16)
  | object (number : UInt16) (name : String) (relations : Relations) (attributes : List UInt8)
      (properties : List PropertyData)
  deriving DecidableEq

structure Draft where
  version : UInt8
  image : Vector UInt8 imageSize
  /-- Where the next code goes. -/
  code : Nat
  /-- Where the next property table goes. -/
  properties : Nat

def bytesOf (w : UInt16) : List UInt8 := [highByte w, lowByte w]

def isEarly (version : UInt8) : Bool := version ≤ 3

def packingUnit (version : UInt8) : Nat :=
  if 1 ≤ version ∧ version ≤ 3 then 2 else if 4 ≤ version ∧ version ≤ 7 then 4 else 8

def packed (version : UInt8) (address : Nat) : UInt16 :=
  UInt16.ofNat (address / packingUnit version)

def objectEntry (version : UInt8) (number : UInt16) : Nat :=
  if isEarly version then objectTable + 62 + (number.toNat - 1) * 9
  else objectTable + 126 + (number.toNat - 1) * 14

def recordHeader (version number : UInt8) (size : Nat) : List UInt8 :=
  if isEarly version then [UInt8.ofNat ((size - 1) * 32) ||| number]
  else if size = 1 then [number]
  else if size = 2 then [number ||| 0x40]
  else [number ||| 0x80, UInt8.ofNat (0x80 + size % 64)]

def propertyTable (version : UInt8) (name : String) (properties : List PropertyData) :
    List UInt8 :=
  let words := if name.isEmpty then [] else encodeString .standard name.toList
  let sorted := properties.mergeSort fun p q => decide (q.1 ≤ p.1)
  UInt8.ofNat words.length :: words.flatMap bytesOf ++
    sorted.flatMap (fun p => recordHeader version p.1 p.2.length ++ p.2) ++ [0]

namespace Draft

def setBytes : Nat → List UInt8 → Vector UInt8 imageSize → Vector UInt8 imageSize
  | _, [], image => image
  | a, b :: rest, image => setBytes (a + 1) rest (image.setIfInBounds a b)

def place (a : Nat) (bytes : List UInt8) (d : Draft) : Draft :=
  { d with image := setBytes a bytes d.image }

def placeWord (a : Nat) (w : UInt16) (d : Draft) : Draft := d.place a (bytesOf w)

def setAttribute (entry : Nat) (n : UInt8) (d : Draft) : Draft :=
  let a := entry + n.toNat / 8
  d.place a [d.image.getD a 0 ||| UInt8.ofNat (128 >>> (n.toNat % 8))]

def placeRelations (entry : Nat) (r : Relations) (d : Draft) : Draft :=
  if isEarly d.version then d.place (entry + 4) [r.parent.toUInt8, r.sibling.toUInt8, r.child.toUInt8]
  else d.place (entry + 6) (bytesOf r.parent ++ bytesOf r.sibling ++ bytesOf r.child)

def placeObject (number : UInt16) (name : String) (relations : Relations)
    (attributes : List UInt8) (properties : List PropertyData) (d : Draft) : Draft :=
  let entry := objectEntry d.version number
  let table := propertyTable d.version name properties
  let d := attributes.foldl (fun d n => d.setAttribute entry n) d
  let d := d.placeRelations entry relations
  let d := d.placeWord (entry + if isEarly d.version then 7 else 12) (UInt16.ofNat d.properties)
  let d := d.place d.properties table
  { d with properties := d.properties + table.length }

def add (d : Draft) : Part → Draft
  | .code bytes => { d.place d.code bytes with code := d.code + bytes.length }
  | .bytes a bytes => d.place a bytes
  | .words a words => d.place a (words.flatMap bytesOf)
  | .routine a locals body =>
    let initial := if d.version < 5 then locals.flatMap bytesOf else []
    d.place a (UInt8.ofNat locals.length :: initial ++ body)
  | .string a text => d.place a ((encodeString .standard text.toList).flatMap bytesOf)
  | .global index value => d.placeWord (globals + index.toNat * 2) value
  | .abbreviation index a =>
    d.placeWord (abbreviations + index.toNat * 2) (UInt16.ofNat (a / 2))
  | .defaultProperty property value => d.placeWord (objectTable + (property.toNat - 1) * 2) value
  | .object number name relations attributes properties =>
    d.placeObject number name relations attributes properties

/-- The header, a dictionary without words, and from version 6 an empty main routine header. -/
def blank (version : UInt8) : Draft :=
  let d : Draft := ⟨version, Vector.replicate imageSize 0, codeStart, propertyArea⟩
  let d := d.place 0x00 [version]
  let d := d.placeWord 0x04 (UInt16.ofNat codeStart)
  let d := d.placeWord 0x08 (UInt16.ofNat dictionary)
  let d := d.placeWord 0x0A (UInt16.ofNat objectTable)
  let d := d.placeWord 0x0C (UInt16.ofNat globals)
  let d := d.placeWord 0x0E (UInt16.ofNat staticBase)
  let d := d.placeWord 0x18 (UInt16.ofNat abbreviations)
  let d := d.place 0x12 (List.replicate 6 48)
  let d := d.place dictionary [3, 46, 44, 34, if isEarly version then 7 else 9, 0, 0]
  if 6 ≤ version then
    { d.placeWord 0x06 (packed version codeStart) with code := codeStart + 1 }
  else d.placeWord 0x06 (UInt16.ofNat codeStart)

def checksum (image : Vector UInt8 imageSize) : UInt16 :=
  (image.toArray.extract 64 imageSize).foldl (fun sum b => sum + b.toUInt16) 0

def finish (d : Draft) : Array UInt8 :=
  let d := d.placeWord 0x1A (UInt16.ofNat (imageSize / lengthUnit d.version))
  let d := d.placeWord 0x1C (checksum d.image)
  d.image.toArray

end Draft

def draft (version : UInt8) (parts : List Part) : Draft := parts.foldl Draft.add (.blank version)

def build (version : UInt8) (parts : List Part) : Except Fault Memory :=
  Memory.load (draft version parts).finish

end ZMachine.Story
