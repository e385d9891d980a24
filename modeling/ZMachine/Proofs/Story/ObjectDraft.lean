import Mathlib.Algebra.GroupWithZero.Nat
import ZMachine.Proofs.Object.Attributes
import ZMachine.Proofs.Story.PropertyTable

/-!
Objects in drafts. An object is laid down in its entry and in the next free bytes of the property area,
and a default in its word; every other byte below the free ones stays, so that what was laid down once is
still there when the image is finished.
-/

namespace ZMachine.Story

def objects (version : UInt8) : ObjectTable := ⟨objectTable, version⟩

theorem layout_early {version : UInt8} (h : version ≤ 3) : (objects version).layout = .early := if_pos h

theorem layout_late {version : UInt8} (h : ¬ version ≤ 3) : (objects version).layout = .late := if_neg h

theorem objectEntry_eq (version : UInt8) (number : UInt16) :
    objectEntry version number = objectTable + (objects version).layout.defaultProperties * 2 +
      (number.toNat - 1) * (objects version).layout.entrySize := by
  by_cases h : version ≤ 3
  · simp [objectEntry, isEarly, h, layout_early, Layout.early]
  · simp [objectEntry, isEarly, h, layout_late, Layout.late]

theorem defaults_inside (version : UInt8) :
    objectTable + (objects version).layout.defaultProperties * 2 ≤ propertyArea := by
  by_cases h : version ≤ 3
  · rw [layout_early h]
    decide
  · rw [layout_late h]
    decide

/-- An object that the table has room for, with what its fields can hold. -/
structure ObjectFits (version : UInt8) (number : UInt16) (name : String) (relations : Relations)
    (attributes : List UInt8) (properties : List PropertyData) : Prop where
  numbered : 1 ≤ number
  inside : objectEntry version number + (objects version).layout.entrySize ≤ propertyArea
  narrow : version ≤ 3 → relations.parent ≤ 255 ∧ relations.sibling ≤ 255 ∧ relations.child ≤ 255
  known : ∀ n ∈ attributes, n.toNat < (objects version).layout.attributeCount
  short : (encodeString .standard name.toList).length ≤ 255
  records : ∀ p ∈ properties, PropertyFits version p
  distinct : (properties.map Prod.fst).Nodup

def EntryByte (version : UInt8) (number : UInt16) (k : Nat) : Prop :=
  objectEntry version number ≤ k ∧ k < objectEntry version number + (objects version).layout.entrySize

def relationBytes (version : UInt8) (r : Relations) : List UInt8 :=
  if isEarly version then [r.parent.toUInt8, r.sibling.toUInt8, r.child.toUInt8]
  else bytesOf r.parent ++ bytesOf r.sibling ++ bytesOf r.child

namespace Draft

variable {d d' e : Draft} {P : Nat → Prop} {a k entry n : Nat} {bytes : List UInt8}

@[simp] theorem version_place : (d.place a bytes).version = d.version := rfl

@[simp] theorem properties_place : (d.place a bytes).properties = d.properties := rfl

def Shows (d : Draft) (a : Nat) (bytes : List UInt8) : Prop :=
  ∀ k b, bytes[k]? = some b → d.image[a + k]? = some b

theorem shows_place (room : a + bytes.length ≤ imageSize) : (d.place a bytes).Shows a bytes := by
  intro k b hb
  have hk : k < bytes.length := (List.getElem?_eq_some_iff.1 hb).1
  exact (getElem?_setBytes_inside hk (by omega)).trans hb

theorem Shows.congr (h : d.Shows a bytes)
    (same : ∀ k, a ≤ k → k < a + bytes.length → d'.image[k]? = d.image[k]?) : d'.Shows a bytes := by
  intro k b hb
  have hk : k < bytes.length := (List.getElem?_eq_some_iff.1 hb).1
  rw [same (a + k) (by omega) (by omega)]
  exact h k b hb

structure EditsWithin (P : Nat → Prop) (d d' : Draft) : Prop where
  version : d'.version = d.version
  properties : d'.properties = d.properties
  image : ∀ k, ¬ P k → d'.image[k]? = d.image[k]?

namespace EditsWithin

theorem trans (h : EditsWithin P d d') (h' : EditsWithin P d' e) : EditsWithin P d e :=
  ⟨h'.version.trans h.version, h'.properties.trans h.properties,
    fun k hk => (h'.image k hk).trans (h.image k hk)⟩

theorem place (h : ∀ k, a ≤ k → k < a + bytes.length → P k) : EditsWithin P d (d.place a bytes) := by
  refine ⟨rfl, rfl, fun k hk => getElem?_place_outside ?_⟩
  by_cases hin : a ≤ k ∧ k < a + bytes.length
  · exact absurd (h k hin.1 hin.2) hk
  · omega

end EditsWithin

def flag (d : Draft) (entry n : Nat) : Bool := (d.image[entry + n / 8]?.getD 0).toNat.testBit (7 - n % 8)

theorem testBit_mask {j : Nat} (hj : j < 8) (i : Nat) :
    (UInt8.ofNat (128 >>> j)).toNat.testBit i = decide (7 - j = i) := by
  have hpow : 128 >>> j = 2 ^ (7 - j) := by
    rw [Nat.shiftRight_eq_div_pow, show 128 = 2 ^ 7 from rfl, Nat.pow_div (by omega) (by decide)]
  have hlt : 2 ^ (7 - j) < 256 := Nat.pow_lt_pow_right (n := 8) (by decide) (by omega)
  rw [hpow, UInt8.toNat_ofNat_of_lt' hlt, Nat.testBit_two_pow]

theorem flag_setAttribute (x : UInt8) (room : entry + x.toNat / 8 < imageSize) :
    (d.setAttribute entry x).flag entry n = (d.flag entry n || decide (x.toNat = n)) := by
  unfold flag
  by_cases hbyte : n / 8 = x.toNat / 8
  · have hset : (d.setAttribute entry x).image[entry + x.toNat / 8]? =
        some (d.image.getD (entry + x.toNat / 8) 0 ||| UInt8.ofNat (128 >>> (x.toNat % 8))) :=
      getElem?_setBytes_inside (k := 0) Nat.one_pos room
    have hold : d.image.getD (entry + x.toNat / 8) 0 = d.image[entry + x.toNat / 8]?.getD 0 := by
      simp [Vector.getD]
    rw [hbyte, hset, hold, Option.getD_some, UInt8.toNat_or, Nat.testBit_or,
      testBit_mask (Nat.mod_lt _ (by decide))]
    congr 2
    rw [eq_iff_iff]
    omega
  · have hset : (d.setAttribute entry x).image[entry + n / 8]? = d.image[entry + n / 8]? :=
      getElem?_place_outside (by simp only [List.length_singleton]; omega)
    rw [hset, decide_eq_false (by rintro rfl; exact hbyte rfl), Bool.or_false]

theorem flag_foldl (d : Draft) (entry n : Nat) (attributes : List UInt8)
    (room : ∀ x ∈ attributes, entry + x.toNat / 8 < imageSize) :
    (attributes.foldl (fun d x => d.setAttribute entry x) d).flag entry n =
      (d.flag entry n || attributes.any (·.toNat = n)) := by
  induction attributes generalizing d with
  | nil => simp
  | cons x rest ih =>
    obtain ⟨hx, hrest⟩ := List.forall_mem_cons.1 room
    rw [List.foldl_cons, ih _ hrest, flag_setAttribute x hx, List.any_cons, Bool.or_assoc]

theorem edits_foldl (d : Draft) (entry : Nat) (attributes : List UInt8)
    (h : ∀ x ∈ attributes, P (entry + x.toNat / 8)) :
    EditsWithin P d (attributes.foldl (fun d x => d.setAttribute entry x) d) := by
  induction attributes generalizing d with
  | nil => exact ⟨rfl, rfl, fun _ _ => rfl⟩
  | cons x rest ih =>
    obtain ⟨hx, hrest⟩ := List.forall_mem_cons.1 h
    apply EditsWithin.trans (.place _) (ih _ hrest)
    intro k hk hk'
    rw [List.length_singleton] at hk'
    obtain rfl : k = entry + x.toNat / 8 := by omega
    exact hx

section Object

variable {version : UInt8} {number : UInt16} {name : String} {relations : Relations}
  {attributes : List UInt8} {properties : List PropertyData}

structure HoldsEntry (version : UInt8) (number : UInt16) (relations : Relations) (attributes : List UInt8)
    (a : Nat) (d : Draft) : Prop where
  flags : ∀ n < (objects version).layout.attributeCount,
    d.flag (objectEntry version number) n = attributes.any (·.toNat = n)
  links : d.Shows (objectEntry version number + (objects version).layout.parentOffset)
    (relationBytes version relations)
  address : d.Shows (objectEntry version number + (objects version).layout.propertyTableOffset)
    (bytesOf (UInt16.ofNat a))

theorem entry_fields (version : UInt8) (relations : Relations) :
    (objects version).layout.attributeCount = 8 * (objects version).layout.parentOffset ∧
      (objects version).layout.propertyTableOffset =
        (objects version).layout.parentOffset + (relationBytes version relations).length ∧
      (objects version).layout.entrySize = (objects version).layout.propertyTableOffset + 2 := by
  by_cases h : version ≤ 3
  · simp [layout_early, h, relationBytes, isEarly, Layout.early]
  · simp [layout_late, h, relationBytes, isEarly, Layout.late, bytesOf]

theorem HoldsEntry.congr (h : d.HoldsEntry version number relations attributes a)
    (same : ∀ k, EntryByte version number k → d'.image[k]? = d.image[k]?) :
    d'.HoldsEntry version number relations attributes a := by
  obtain ⟨hcount, hoffset, hsize⟩ := entry_fields version relations
  unfold EntryByte at same
  constructor
  · intro n hn
    rw [← h.flags n hn, flag, flag, same _ (by omega)]
  · apply h.links.congr
    intro k hk hk'
    exact same k (by omega)
  · apply h.address.congr
    intro k hk hk'
    change k < _ + 2 at hk'
    exact same k (by omega)

theorem placeRelations_eq (d : Draft) (entry : Nat) (r : Relations) :
    d.placeRelations entry r =
      d.place (entry + (objects d.version).layout.parentOffset) (relationBytes d.version r) := by
  by_cases h : d.version ≤ 3
  · simp [placeRelations, relationBytes, isEarly, h, layout_early, Layout.early]
  · simp [placeRelations, relationBytes, isEarly, h, layout_late, Layout.late]

def placeEntry (d : Draft) (number : UInt16) (relations : Relations) (attributes : List UInt8) : Draft :=
  let entry := objectEntry d.version number
  let e := attributes.foldl (fun e x => e.setAttribute entry x) d
  let e := e.place (entry + (objects d.version).layout.parentOffset) (relationBytes d.version relations)
  e.place (entry + (objects d.version).layout.propertyTableOffset) (bytesOf (UInt16.ofNat d.properties))

theorem placeObject_eq (d : Draft) :
    d.placeObject number name relations attributes properties =
      { (d.placeEntry number relations attributes).place d.properties
          (propertyTable d.version name properties) with
        properties := d.properties + (propertyTable d.version name properties).length } := by
  obtain ⟨hversion, hproperties, -⟩ := edits_foldl (P := fun _ => True) d
    (objectEntry d.version number) attributes (fun _ _ => trivial)
  unfold placeObject placeEntry
  dsimp only
  generalize attributes.foldl (fun e x => e.setAttribute (objectEntry d.version number) x) d = e at *
  have hoffset : (if isEarly d.version then 7 else 12) = (objects d.version).layout.propertyTableOffset := by
    by_cases h : d.version ≤ 3
    · simp [isEarly, h, layout_early, Layout.early]
    · simp [isEarly, h, layout_late, Layout.late]
  simp only [placeWord, placeRelations_eq, version_place, properties_place, hversion, hproperties, hoffset]

theorem image_placeObject (d : Draft) :
    (d.placeObject number name relations attributes properties).image =
      ((d.placeEntry number relations attributes).place d.properties
        (propertyTable d.version name properties)).image := by
  rw [placeObject_eq]

theorem edits_placeEntry (hfits : ObjectFits d.version number name relations attributes properties) :
    EditsWithin (EntryByte d.version number) d (d.placeEntry number relations attributes) := by
  obtain ⟨hcount, hoffset, hsize⟩ := entry_fields d.version relations
  unfold EntryByte
  refine .trans (.trans (edits_foldl d _ attributes fun x hx => ?_) (.place fun k hk hk' => ?_))
    (.place fun k hk hk' => ?_)
  · have := hfits.known x hx
    omega
  · omega
  · change k < _ + 2 at hk'
    omega

theorem holds_placeEntry (hfits : ObjectFits d.version number name relations attributes properties)
    (hblank : ∀ k, EntryByte d.version number k → d.image[k]? = some 0) :
    (d.placeEntry number relations attributes).HoldsEntry d.version number relations attributes
      d.properties := by
  obtain ⟨hcount, hoffset, hsize⟩ := entry_fields d.version relations
  have hinside : objectEntry d.version number + (objects d.version).layout.entrySize ≤ imageSize :=
    Nat.le_trans hfits.inside (by decide)
  constructor
  · intro n hn
    have hfold := flag_foldl d (objectEntry d.version number) n attributes (by
      intro x hx
      have := hfits.known x hx
      omega)
    have hclear : d.flag (objectEntry d.version number) n = false := by
      rw [flag, hblank _ (by unfold EntryByte; omega)]
      exact Nat.zero_testBit _
    rw [hclear, Bool.false_or] at hfold
    rw [← hfold, flag, flag, placeEntry, getElem?_place_outside (by omega), getElem?_place_outside (by omega)]
  · apply (shows_place (by omega)).congr
    intro k hk hk'
    exact getElem?_place_outside (by omega)
  · apply shows_place
    change _ + 2 ≤ imageSize
    omega

theorem holds_placeObject (hfits : ObjectFits d.version number name relations attributes properties)
    (hblank : ∀ k, EntryByte d.version number k → d.image[k]? = some 0)
    (harea : propertyArea ≤ d.properties)
    (room : d.properties + (propertyTable d.version name properties).length ≤ imageSize) :
    (d.placeObject number name relations attributes properties).HoldsEntry d.version number relations
        attributes d.properties ∧
      (d.placeObject number name relations attributes properties).Shows d.properties
        (propertyTable d.version name properties) := by
  have hinside := hfits.inside
  constructor
  · apply (holds_placeEntry hfits hblank).congr
    rintro k ⟨-, hk⟩
    rw [image_placeObject]
    exact getElem?_place_outside (by omega)
  · intro k b hb
    rw [image_placeObject]
    exact shows_place room k b hb

theorem getElem?_placeObject (hfits : ObjectFits d.version number name relations attributes properties)
    (hentry : ¬ EntryByte d.version number k) (hk : k < d.properties) :
    (d.placeObject number name relations attributes properties).image[k]? = d.image[k]? := by
  rw [image_placeObject]
  exact (getElem?_place_outside (.inl hk)).trans ((edits_placeEntry hfits).image k hentry)

end Object

end Draft

namespace Part

/-- A default or an object that the table has room for. -/
def Fits (version : UInt8) : Part → Prop
  | .defaultProperty property _ =>
    1 ≤ property.toNat ∧ property.toNat ≤ (objects version).layout.defaultProperties
  | .object number name relations attributes properties =>
    ObjectFits version number name relations attributes properties
  | _ => False

def number? : Part → Option UInt16
  | .object number .. => some number
  | _ => none

def default? (property : UInt8) : Part → Option UInt16
  | .defaultProperty p value => if p = property then some value else none
  | _ => none

theorem eq_of_default? {property : UInt8} {value : UInt16} {part : Part}
    (h : part.default? property = some value) : part = .defaultProperty property value := by
  cases part with
  | defaultProperty other v =>
    rw [default?] at h
    split at h
    · next heq =>
      cases h
      rw [heq]
    · cases h
  | _ => cases h

def tableSize (version : UInt8) : Part → Nat
  | .object _ name _ _ properties => (propertyTable version name properties).length
  | _ => 0

def Spares (version : UInt8) (k : Nat) : Part → Prop
  | .defaultProperty property _ =>
    k < objectTable + (property.toNat - 1) * 2 ∨ objectTable + (property.toNat - 1) * 2 + 2 ≤ k
  | .object number .. => ¬ EntryByte version number k
  | _ => True

variable {version : UInt8} {part : Part} {k : Nat}

theorem spares_of_outside (h : part.Fits version) (hk : k < objectTable ∨ propertyArea ≤ k) :
    part.Spares version k := by
  cases part with
  | defaultProperty property value =>
    obtain ⟨hpos, hlast⟩ := h
    have hroom := defaults_inside version
    rw [Spares]
    omega
  | object number name relations attributes properties =>
    have hinside := ObjectFits.inside h
    rw [objectEntry_eq] at hinside
    rw [Spares, EntryByte, objectEntry_eq]
    omega
  | _ => trivial

theorem spares_of_entry {number : UInt16} (h : part.Fits version) (hnumber : 1 ≤ number)
    (hne : part.number? ≠ some number) (hk : EntryByte version number k) : part.Spares version k := by
  -- The entries of two objects do not meet, and no default is in an entry.
  rw [EntryByte, objectEntry_eq] at hk
  cases part with
  | defaultProperty property value =>
    obtain ⟨hpos, hlast⟩ := h
    rw [Spares]
    omega
  | object other name relations attributes properties =>
    have hother := UInt16.le_iff_toNat_le.1 (ObjectFits.numbered h)
    have hnumber' := UInt16.le_iff_toNat_le.1 hnumber
    have hapart : other.toNat ≠ number.toNat := by
      intro heq
      exact hne (congrArg some (UInt16.toNat_inj.1 heq))
    rw [Spares, EntryByte, objectEntry_eq]
    by_cases hv : version ≤ 3
    · simp only [layout_early hv, Layout.early] at *
      simp only [UInt16.reduceToNat] at hother hnumber'
      omega
    · simp only [layout_late hv, Layout.late] at *
      simp only [UInt16.reduceToNat] at hother hnumber'
      omega
  | _ => trivial

theorem spares_of_default {property : UInt8} (h : part.Fits version)
    (hrange : 1 ≤ property.toNat ∧ property.toNat ≤ (objects version).layout.defaultProperties)
    (hne : part.default? property = none) (hk : objectTable + (property.toNat - 1) * 2 ≤ k)
    (hk' : k < objectTable + (property.toNat - 1) * 2 + 2) : part.Spares version k := by
  cases part with
  | defaultProperty other value =>
    obtain ⟨hpos, -⟩ := h
    have hapart : other.toNat ≠ property.toNat := by
      intro heq
      rw [default?, if_pos (UInt8.toNat_inj.1 heq)] at hne
      cases hne
    rw [Spares]
    omega
  | object number name relations attributes properties =>
    rw [Spares, EntryByte, objectEntry_eq]
    omega
  | _ => trivial

end Part

namespace Draft

variable {d d' e : Draft} {version : UInt8} {part : Part} {parts more : List Part} {k : Nat}

/-- `d'` is `d` with these parts, as far as the bytes before the free ones are concerned. -/
structure Grows (version : UInt8) (parts : List Part) (d d' : Draft) : Prop where
  properties : d'.properties = d.properties + (parts.map (Part.tableSize version)).sum
  image : ∀ k < d.properties, (∀ part ∈ parts, part.Spares version k) → d'.image[k]? = d.image[k]?
  version : d'.version = version

theorem Grows.append (h : Grows version parts d d') (h' : Grows version more d' e) :
    Grows version (parts ++ more) d e := by
  refine ⟨?_, ?_, h'.version⟩
  · rw [h'.properties, h.properties, List.map_append, List.sum_append, Nat.add_assoc]
  · intro k hk hspares
    obtain ⟨hparts, hmore⟩ := List.forall_mem_append.1 hspares
    rw [h'.image k (by rw [h.properties]; omega) hmore, h.image k hk hparts]

theorem grows_add (hv : d.version = version) (h : part.Fits version) :
    Grows version [part] d (d.add part) := by
  subst hv
  cases part with
  | defaultProperty property value =>
    refine ⟨rfl, fun k _ hspares => ?_, rfl⟩
    exact getElem?_placeWord_outside (hspares _ List.mem_cons_self)
  | object number name relations attributes properties =>
    refine ⟨?_, fun k hk hspares => ?_, ?_⟩
    · rw [add, placeObject_eq]
      simp [Part.tableSize]
    · exact getElem?_placeObject h (hspares _ List.mem_cons_self) hk
    · rw [add, placeObject_eq]
      exact (edits_placeEntry h).version
  | _ => exact absurd h id

theorem grows_foldl (hv : d.version = version) (h : ∀ part ∈ parts, part.Fits version) :
    Grows version parts d (parts.foldl add d) := by
  induction parts generalizing d with
  | nil => exact ⟨rfl, fun _ _ _ => rfl, hv⟩
  | cons part rest ih =>
    obtain ⟨hpart, hrest⟩ := List.forall_mem_cons.1 h
    have hadd := grows_add hv hpart
    exact hadd.append (ih hadd.version hrest)

end Draft

end ZMachine.Story
