import Mathlib.Data.List.Nodup
import ZMachine.Proofs.Story.ObjectDraft

namespace ZMachine

theorem testBit_ofBytes16 (high low : UInt8) (i : Nat) :
    (ofBytes16 high low).toNat.testBit i =
      if i < 8 then low.toNat.testBit i else high.toNat.testBit (i - 8) := by
  rw [toNat_ofBytes16, Nat.mul_comm, show 256 = 2 ^ 8 from rfl, Nat.testBit_two_pow_mul_add _ low.toNat_lt]

theorem testBit_ofWords (high low : UInt16) (i : Nat) :
    (UInt32.ofNat (high.toNat * 65536 + low.toNat)).toNat.testBit i =
      if i < 16 then low.toNat.testBit i else high.toNat.testBit (i - 16) := by
  have hh := high.toNat_lt
  have hl := low.toNat_lt
  have htoNat : (UInt32.ofNat (high.toNat * 65536 + low.toNat)).toNat = 2 ^ 16 * high.toNat + low.toNat := by
    rw [UInt32.toNat_ofNat']
    omega
  rw [htoNat, Nat.testBit_two_pow_mul_add _ hl]

namespace Memory

variable {m : Memory} {a i : Nat} {b : UInt8}

theorem word_testBit (hinside : a + 1 < m.bytes.size) (hi : i < 16) (hb : m.byte (a + i / 8) = .ok b) :
    ∃ w, m.word a = .ok w ∧ w.toNat.testBit (15 - i) = b.toNat.testBit (7 - i % 8) := by
  obtain ⟨high, hhigh⟩ := byte_of_lt (m := m) (a := a) (by omega)
  obtain ⟨low, hlow⟩ := byte_of_lt hinside
  refine ⟨_, word_of_bytes hhigh hlow, ?_⟩
  rw [testBit_ofBytes16]
  by_cases hfirst : i < 8
  · rw [Nat.div_eq_of_lt hfirst, Nat.add_zero, hhigh] at hb
    cases hb
    rw [if_neg (by omega), show 15 - i - 8 = 7 - i % 8 by omega]
  · rw [show i / 8 = 1 by omega, hlow] at hb
    cases hb
    rw [if_pos (by omega), show 15 - i = 7 - i % 8 by omega]

theorem dword_testBit (hinside : a + 3 < m.bytes.size) (hi : i < 32) (hb : m.byte (a + i / 8) = .ok b) :
    ∃ d, m.dword a = .ok d ∧ d.toNat.testBit (31 - i) = b.toNat.testBit (7 - i % 8) := by
  by_cases hfirst : i < 16
  · obtain ⟨high, hhigh, hbit⟩ := word_testBit (m := m) (a := a) (by omega) hfirst hb
    obtain ⟨low, hlow⟩ := word_of_lt (m := m) (a := a + 2) (by omega)
    refine ⟨_, dword_of_words hhigh hlow, ?_⟩
    rw [testBit_ofWords, if_neg (by omega), ← hbit, show 31 - i - 16 = 15 - i by omega]
  · obtain ⟨high, hhigh⟩ := word_of_lt (m := m) (a := a) (by omega)
    rw [show a + i / 8 = a + 2 + (i - 16) / 8 by omega] at hb
    obtain ⟨low, hlow, hbit⟩ := word_testBit (by omega) (by omega) hb
    refine ⟨_, dword_of_words hhigh hlow, ?_⟩
    rw [testBit_ofWords, if_pos (by omega), show 7 - i % 8 = 7 - (i - 16) % 8 by omega, ← hbit,
      show 31 - i = 15 - (i - 16) by omega]

end Memory

namespace ObjectTable

variable {t : ObjectTable} {m : Memory} {obj attr : UInt16} {a : Nat} {b : UInt8}

theorem testAttribute_of_byte (hattr : attr.toNat < t.layout.attributeCount) (ha : t.entry obj = .ok a)
    (hinside : a + t.attributeBytes ≤ m.bytes.size) (hb : m.byte (a + attr.toNat / 8) = .ok b) :
    t.testAttribute m obj attr = .ok (b.toNat.testBit (7 - attr.toNat % 8)) := by
  rw [testAttribute_eq hattr ha]
  by_cases hfirst : attr < 32
  · have hlow := t.attributeBytes_low
    obtain ⟨d, hd, hbit⟩ := Memory.dword_testBit (by omega) (lt_32 hfirst) hb
    rw [if_pos hfirst, hd, ← hbit]
    rfl
  · obtain ⟨hbytes, hlt⟩ := attributeBytes_high hattr hfirst
    have hge := not_lt_32 hfirst
    rw [show a + attr.toNat / 8 = a + 4 + (attr.toNat - 32) / 8 by omega] at hb
    obtain ⟨w, hw, hbit⟩ := Memory.word_testBit (by omega) (by omega) hb
    rw [if_neg hfirst, hw, show 7 - attr.toNat % 8 = 7 - (attr.toNat - 32) % 8 by omega, ← hbit,
      show 15 - (attr.toNat - 32) = 47 - attr.toNat by omega]
    rfl

end ObjectTable

namespace Story

def lastDefault (parts : List Part) (property : UInt8) : Option UInt16 :=
  parts.reverse.findSome? (Part.default? property)

theorem lastDefault_append (parts : List Part) (part : Part) (property : UInt8) :
    lastDefault (parts ++ [part]) property = (part.default? property).or (lastDefault parts property) := by
  rw [lastDefault, List.reverse_append, List.reverse_singleton, List.singleton_append, List.findSome?_cons]
  cases part.default? property <;> rfl

namespace Draft

variable {version : UInt8} {parts : List Part} {k : Nat}

theorem fields_blank (version : UInt8) :
    (blank version).version = version ∧ (blank version).properties = propertyArea := by
  unfold blank
  dsimp only
  split <;> exact ⟨rfl, rfl⟩

theorem getElem?_blank (h : 0x1A ≤ k ∧ k < dictionary) : (blank version).image[k]? = some 0 := by
  have hdictionary : dictionary = 0x1000 := rfl
  have hzero : (Vector.replicate imageSize (0 : UInt8))[k]? = some 0 := by
    rw [Vector.getElem?_replicate, if_pos]
    exact Nat.lt_trans h.2 (by decide)
  unfold blank
  dsimp only
  split
  all_goals
    rw [getElem?_placeWord_outside (by omega), getElem?_place_outside (by omega),
      getElem?_place_outside (by rw [List.length_replicate]; omega)]
    iterate 6 rw [getElem?_placeWord_outside (by omega)]
    rw [getElem?_place_outside (by rw [List.length_singleton]; omega)]
    exact hzero

theorem objectTable_blank (version : UInt8) :
    (blank version).Shows 0x0A (bytesOf (UInt16.ofNat objectTable)) := by
  intro k b hb
  have hk : k < 2 := (List.getElem?_eq_some_iff.1 hb).1
  have hdictionary : dictionary = 0x1000 := rfl
  unfold blank
  dsimp only
  split
  all_goals
    rw [getElem?_placeWord_outside (by omega), getElem?_place_outside (by omega),
      getElem?_place_outside (by omega)]
    iterate 3 rw [getElem?_placeWord_outside (by omega)]
    exact shows_place (by decide) k b hb

theorem grows_draft (h : ∀ part ∈ parts, part.Fits version) :
    Grows version parts (blank version) (draft version parts) :=
  grows_foldl (fields_blank version).1 h

theorem getElem?_draft (h : ∀ part ∈ parts, part.Fits version) (hk : k < objectTable) :
    (draft version parts).image[k]? = (blank version).image[k]? := by
  have harea : objectTable ≤ propertyArea := by decide
  apply (grows_draft h).image k
  · rw [(fields_blank version).2]
    omega
  · intro part hpart
    exact Part.spares_of_outside (h part hpart) (.inl hk)

theorem properties_draft (h : ∀ part ∈ parts, part.Fits version) :
    (draft version parts).properties = propertyArea + (parts.map (Part.tableSize version)).sum := by
  rw [(grows_draft h).properties, (fields_blank version).2]

theorem draft_append (before after : List Part) (part : Part) :
    draft version (before ++ part :: after) = after.foldl add ((draft version before).add part) := by
  rw [draft, List.foldl_append, List.foldl_cons]
  rfl

theorem shows_default {property : UInt8} (h : ∀ part ∈ parts, part.Fits version)
    (hrange : 1 ≤ property.toNat ∧ property.toNat ≤ (objects version).layout.defaultProperties) :
    (draft version parts).Shows (objectTable + (property.toNat - 1) * 2)
      (bytesOf ((lastDefault parts property).getD 0)) := by
  have hroom := defaults_inside version
  induction parts using List.reverseRecOn with
  | nil =>
    intro k b hb
    have hk : k < 2 := (List.getElem?_eq_some_iff.1 hb).1
    have hzero : bytesOf ((lastDefault [] property).getD 0) = [0, 0] := by
      change bytesOf 0 = [0, 0]
      decide
    have hstart : 0x1A ≤ objectTable := by decide
    have harea : propertyArea ≤ dictionary := by decide
    change (blank version).image[_]? = _
    rw [hzero] at hb
    rw [getElem?_blank (by omega), ← hb]
    obtain _ | _ | k := k
    · rfl
    · rfl
    · omega
  | append_singleton before part ih =>
    obtain ⟨hbefore, hpart⟩ := List.forall_mem_append.1 h
    have hfits := hpart part List.mem_cons_self
    have hproperties := properties_draft hbefore
    rw [draft_append before [] part, lastDefault_append]
    change ((draft version before).add part).Shows _ _
    cases hdefault : part.default? property with
    | some value =>
      obtain rfl := Part.eq_of_default? hdefault
      apply shows_place
      change objectTable + (property.toNat - 1) * 2 + 2 ≤ imageSize
      exact Nat.le_trans (by omega) (show propertyArea ≤ imageSize by decide)
    | none =>
      apply (ih hbefore).congr
      intro k hk hk'
      change k < _ + 2 at hk'
      apply (grows_add (grows_draft hbefore).version hfits).image k (by omega)
      rw [List.forall_mem_singleton]
      exact Part.spares_of_default hfits hrange hdefault hk hk'

variable {number : UInt16} {name : String} {relations : Relations} {attributes : List UInt8}
  {properties : List PropertyData}

theorem number_ne {before after : List Part} {part : Part} (hpart : part.number? = some number)
    (h : ((before ++ part :: after).filterMap Part.number?).Nodup) :
    (∀ other ∈ before, other.number? ≠ some number) ∧ ∀ other ∈ after, other.number? ≠ some number := by
  rw [List.filterMap_append, List.filterMap_cons_some hpart, List.nodup_middle, List.nodup_cons,
    List.mem_append, not_or] at h
  obtain ⟨⟨hbefore, hafter⟩, -⟩ := h
  constructor
  · intro other hother hsame
    exact hbefore (List.mem_filterMap.2 ⟨other, hother, hsame⟩)
  · intro other hother hsame
    exact hafter (List.mem_filterMap.2 ⟨other, hother, hsame⟩)

theorem entry_blank (h : ∀ part ∈ parts, part.Fits version)
    (hfits : ObjectFits version number name relations attributes properties)
    (hne : ∀ part ∈ parts, part.number? ≠ some number) (hk : EntryByte version number k) :
    (draft version parts).image[k]? = some 0 := by
  have hproperties := (fields_blank version).2
  have hinside := hfits.inside
  have hstart : 0x1A ≤ objectTable := by decide
  have harea : propertyArea ≤ dictionary := by decide
  have hlt : k < propertyArea := Nat.lt_of_lt_of_le hk.2 hinside
  have hkept := (grows_draft h).image k (by omega) (by
    intro part hpart
    exact Part.spares_of_entry (h part hpart) hfits.numbered (hne part hpart) hk)
  rw [EntryByte, objectEntry_eq] at hk
  rw [hkept, getElem?_blank (by omega)]

theorem holds_draft (h : ∀ part ∈ parts, part.Fits version) (hdistinct : (parts.filterMap Part.number?).Nodup)
    (room : propertyArea + (parts.map (Part.tableSize version)).sum ≤ imageSize)
    (hmem : Part.object number name relations attributes properties ∈ parts) :
    ∃ a, propertyArea ≤ a ∧ a + (propertyTable version name properties).length ≤ imageSize ∧
      (draft version parts).HoldsEntry version number relations attributes a ∧
      (draft version parts).Shows a (propertyTable version name properties) := by
  -- An object stays as it was laid down: the parts before it leave its entry blank, and those after
  -- it leave both its entry and its property table.
  obtain ⟨before, after, rfl⟩ := List.append_of_mem hmem
  obtain ⟨hbefore, hrest⟩ := List.forall_mem_append.1 h
  obtain ⟨hpart, hafter⟩ := List.forall_mem_cons.1 hrest
  obtain ⟨hne, hne'⟩ := number_ne rfl hdistinct
  have hfits : ObjectFits version number name relations attributes properties := hpart
  have hinside := hfits.inside
  have hblank := fun k => entry_blank (k := k) hbefore hfits hne
  have hversion := (grows_draft hbefore).version
  have hproperties := properties_draft hbefore
  simp only [List.map_append, List.map_cons, List.sum_append, List.sum_cons, Part.tableSize] at room
  rw [draft_append]
  generalize draft version before = d at *
  have hadded := grows_add hversion hpart
  have hkept := (grows_foldl hadded.version hafter).image
  have hcursor : (d.add (.object number name relations attributes properties)).properties =
      d.properties + (propertyTable version name properties).length := hadded.properties
  subst hversion
  have hroom : d.properties + (propertyTable d.version name properties).length ≤ imageSize := by omega
  obtain ⟨hentry, htable⟩ := holds_placeObject hfits hblank (by omega) hroom
  refine ⟨d.properties, by omega, hroom, ?_, ?_⟩
  · apply hentry.congr
    intro k hk
    have hlt := hk.2
    apply hkept k (by omega)
    intro part hpart
    exact Part.spares_of_entry (hafter part hpart) hfits.numbered (hne' part hpart) hk
  · apply htable.congr
    intro k hk hk'
    apply hkept k (by omega)
    intro part hpart
    exact Part.spares_of_outside (hafter part hpart) (.inr (by omega))

end Draft

section Reading

variable {m : Memory} {d : Draft} {version : UInt8} {parts : List Part} {a k : Nat} {bytes : List UInt8}
  {number : UInt16} {name : String} {relations : Relations} {attributes : List UInt8}
  {properties : List PropertyData}

theorem byte_of_image {b : UInt8} (hm : m.bytes = d.finish) (hk : k < 0x1A ∨ 0x1E ≤ k)
    (h : d.image[k]? = some b) : m.byte k = .ok b := by
  rw [Memory.byte_eq_ok_iff, hm, Draft.getElem?_finish hk, h]

theorem Draft.Shows.memory (h : d.Shows a bytes) (hm : m.bytes = d.finish)
    (ha : a + bytes.length ≤ 0x1A ∨ 0x1E ≤ a) : m.Shows a bytes := by
  rw [Memory.shows_iff]
  intro i b hb
  have hi : i < bytes.length := (List.getElem?_eq_some_iff.1 hb).1
  exact byte_of_image hm (by omega) (h i b hb)

theorem objects_of_draft (h : ∀ part ∈ parts, part.Fits version)
    (hm : m.bytes = (draft version parts).finish) : m.objects = objects version := by
  have hversion : m.version = version := by
    apply Memory.version_of_getElem?
    rw [hm, Draft.getElem?_finish (by omega), Draft.getElem?_draft h (by decide), Draft.version_blank]
  have hshows : (draft version parts).Shows 0x0A (bytesOf (UInt16.ofNat objectTable)) := by
    apply (Draft.objectTable_blank version).congr
    intro k _ hk
    change k < 0x0A + 2 at hk
    exact Draft.getElem?_draft h (Nat.lt_trans hk (by decide))
  have hword := Memory.word_of_shows (hshows.memory hm (.inl (by decide)))
  have hbase : m.objectTable = UInt16.ofNat objectTable :=
    Except.ok.inj ((Memory.word_headerWord m 0x0A).symm.trans hword)
  rw [Memory.objects, hversion, hbase]
  rfl

theorem alphabets_of_draft (h : ∀ part ∈ parts, part.Fits version)
    (hm : m.bytes = (draft version parts).finish) : Alphabets.ofMemory m = .ok .standard := by
  have hzero {k : Nat} (hk : 0x1E ≤ k ∧ k < 0x40) : m.byte k = .ok 0 := by
    have harea : 0x40 ≤ objectTable ∧ objectTable ≤ dictionary := by decide
    apply byte_of_image hm (by omega)
    rw [Draft.getElem?_draft h (by omega), Draft.getElem?_blank (by omega)]
  have hword := Memory.word_of_bytes (hzero (k := 0x34) (by decide)) (hzero (k := 0x35) (by decide))
  have hheader : m.headerWord 0x34 = 0 :=
    Except.ok.inj ((Memory.word_headerWord m 0x34).symm.trans hword)
  have htable : m.alphabetTable.toNat = 0 := by
    rw [Memory.alphabetTable, hheader, ite_self]
    rfl
  rw [Alphabets.ofMemory, if_pos htable]

theorem entry_of_fits (h : ObjectFits version number name relations attributes properties) :
    (objects version).entry number = .ok (objectEntry version number) := by
  have hnumber := UInt16.le_iff_toNat_le.1 h.numbered
  have hinside := h.inside
  rw [objectEntry_eq] at hinside ⊢
  apply if_neg
  rintro (rfl | ⟨hwidth, hlarge⟩)
  · exact absurd hnumber (by decide)
  · have hlarge := UInt16.lt_iff_toNat_lt.1 hlarge
    by_cases hv : version ≤ 3
    · rw [layout_early hv] at hinside
      simp only [Layout.early, objectTable, propertyArea] at hinside
      simp only [UInt16.reduceToNat] at hlarge
      omega
    · rw [layout_late hv] at hwidth
      cases hwidth

theorem relation_of_shows (h : ObjectFits version number name relations attributes properties)
    (hshows : m.Shows (objectEntry version number + (objects version).layout.parentOffset)
      (relationBytes version relations)) :
    (objects version).parent m number = .ok relations.parent ∧
      (objects version).sibling m number = .ok relations.sibling ∧
      (objects version).child m number = .ok relations.child := by
  have hfield (r : Relation) : (objects version).relation m number r =
      if (objects version).layout.relationWidth = 1 then
        UInt8.toUInt16 <$> m.byte (objectEntry version number + (objects version).layout.parentOffset +
          r.index * (objects version).layout.relationWidth)
      else m.word (objectEntry version number + (objects version).layout.parentOffset +
        r.index * (objects version).layout.relationWidth) := by
    rw [ObjectTable.relation, ObjectTable.relationAddress, entry_of_fits h]
    rfl
  generalize objectEntry version number + (objects version).layout.parentOffset = a at hshows hfield
  rw [ObjectTable.parent, ObjectTable.sibling, ObjectTable.child, hfield, hfield, hfield]
  by_cases hv : version ≤ 3
  · obtain ⟨hp, hs, hc⟩ := h.narrow hv
    rw [relationBytes, isEarly, decide_eq_true hv, if_pos rfl] at hshows
    obtain ⟨hparent, hsibling, hchild, -⟩ := hshows
    have hbyte {b : Nat} {v : UInt16} (hv : v ≤ 255) (hb : m.byte b = .ok v.toUInt8) :
        UInt8.toUInt16 <$> m.byte b = .ok v := by
      rw [hb]
      exact congrArg Except.ok (ObjectTable.toUInt16_toUInt8 hv)
    rw [layout_early hv]
    exact ⟨hbyte hp hparent, hbyte hs hsibling, hbyte hc hchild⟩
  · rw [relationBytes, isEarly, decide_eq_false hv, if_neg Bool.false_ne_true, Memory.shows_append,
      Memory.shows_append] at hshows
    obtain ⟨⟨hparent, hsibling⟩, hchild⟩ := hshows
    rw [layout_late hv]
    exact ⟨Memory.word_of_shows hparent, Memory.word_of_shows hsibling, Memory.word_of_shows hchild⟩

theorem attributes_of_holds (h : ObjectFits version number name relations attributes properties)
    (hm : m.bytes = d.finish) (hd : d.HoldsEntry version number relations attributes a) (attr : UInt16) :
    (objects version).testAttribute m number attr = .ok (attributes.any (·.toNat = attr.toNat)) := by
  obtain ⟨hcount, hoffset, hsize⟩ := Draft.entry_fields version relations
  have hinside : objectEntry version number + (objects version).layout.entrySize ≤ imageSize :=
    Nat.le_trans h.inside (by decide)
  by_cases hattr : attr.toNat < (objects version).layout.attributeCount
  · have hlt : objectEntry version number + attr.toNat / 8 < imageSize := by omega
    have himage : d.image[objectEntry version number + attr.toNat / 8]? =
        some d.image[objectEntry version number + attr.toNat / 8] := Vector.getElem?_eq_getElem hlt
    have hflag := hd.flags attr.toNat hattr
    rw [Draft.flag, himage, Option.getD_some] at hflag
    have hstart : 0x1E ≤ objectTable := by decide
    have hentry : objectTable ≤ objectEntry version number := by
      rw [objectEntry_eq]
      omega
    have hattributes : objectEntry version number + (objects version).attributeBytes ≤ m.bytes.size := by
      rw [hm, d.size_finish, ObjectTable.attributeBytes]
      omega
    rw [← hflag]
    exact ObjectTable.testAttribute_of_byte hattr (entry_of_fits h) hattributes
      (byte_of_image hm (by omega) himage)
  · rw [ObjectTable.testAttribute_of_le (by omega)]
    apply congrArg Except.ok
    symm
    rw [List.any_eq_false]
    intro x hx
    have hlt := h.known x hx
    rw [decide_eq_true_eq]
    omega

/-- The object table of a memory gives an object back as it was described. -/
structure ReadsBack (m : Memory) (number : UInt16) (name : String) (relations : Relations)
    (attributes : List UInt8) (properties : List PropertyData) : Prop where
  parent : m.objects.parent m number = .ok relations.parent
  sibling : m.objects.sibling m number = .ok relations.sibling
  child : m.objects.child m number = .ok relations.child
  flags : ∀ attr, m.objects.testAttribute m number attr = .ok (attributes.any (·.toNat = attr.toNat))
  records : ∃ rs listed, m.objects.properties m number = .ok rs ∧ listed.Perm properties ∧
    listed.Pairwise (fun p q => q.1 < p.1) ∧ List.Forall₂ (m.objects.RecordHolds m) rs listed
  unnamed : name = "" → m.objects.shortName? m number = .ok none
  named : name ≠ "" → ∃ a, m.objects.shortName? m number = .ok (some a) ∧
    m.text a = .ok (Zscii.readable name.toList)

theorem readsBack_of_holds (h : ObjectFits version number name relations attributes properties)
    (hm : m.bytes = d.finish) (hobjects : m.objects = objects version)
    (hA : Alphabets.ofMemory m = .ok .standard) (harea : propertyArea ≤ a)
    (hinside : a + (propertyTable version name properties).length ≤ imageSize)
    (hentry : d.HoldsEntry version number relations attributes a)
    (htable : d.Shows a (propertyTable version name properties)) :
    ReadsBack m number name relations attributes properties := by
  have hstart : 0x1E ≤ objectTable ∧ objectTable ≤ propertyArea ∧ imageSize < 65536 := by decide
  have hbase : objectTable ≤ objectEntry version number := by
    rw [objectEntry_eq]
    omega
  have hsize : m.bytes.size = imageSize := by rw [hm, d.size_finish]
  obtain ⟨hparent, hsibling, hchild⟩ := relation_of_shows h (hentry.links.memory hm (.inr (by omega)))
  have hpointer : (objects version).propertyTable m number = .ok a := by
    have hword := Memory.word_of_shows (hentry.address.memory hm (.inr (by omega)))
    rw [ObjectTable.propertyTable, entry_of_fits h]
    simp only [bind, Except.bind, hword, UInt16.toNat_ofNat_of_lt' (show a < 65536 by omega)]
    rfl
  have hshows := htable.memory hm (.inr (by omega))
  obtain ⟨hunnamed, hnamed⟩ := ObjectTable.shortName_of_shows hpointer hshows h.short hA
  have hrecords := ObjectTable.properties_of_shows hpointer hshows h.short (by omega) h.records h.distinct
  constructor <;> rw [hobjects]
  · exact hparent
  · exact hsibling
  · exact hchild
  · exact attributes_of_holds h hm hentry
  · exact hrecords
  · exact hunnamed
  · exact hnamed

/-- A story of any version reads back the objects and the defaults that it was built with, in whatever order
they were given. -/
theorem built_objects_read_back (known : 1 ≤ version ∧ version ≤ 8) (h : ∀ part ∈ parts, part.Fits version)
    (hdistinct : (parts.filterMap Part.number?).Nodup)
    (room : propertyArea + (parts.map (Part.tableSize version)).sum ≤ imageSize) :
    ∃ m, build version parts = .ok m ∧
      (∀ number name relations attributes properties,
        Part.object number name relations attributes properties ∈ parts →
          ReadsBack m number name relations attributes properties) ∧
      ∀ property : UInt8, 1 ≤ property → property.toNat ≤ m.objects.layout.defaultProperties →
        m.objects.defaultProperty m property = .ok ((lastDefault parts property).getD 0) := by
  have hversion : (draft version parts).image[0]? = some version := by
    rw [Draft.getElem?_draft h (by decide), Draft.version_blank]
  obtain ⟨m, hload⟩ := Draft.load_finish hversion known
  have hm := Memory.load_bytes hload
  have hobjects := objects_of_draft h hm
  refine ⟨m, hload, ?_, ?_⟩
  · intro number name relations attributes properties hmem
    obtain ⟨a, harea, hinside, hentry, htable⟩ := Draft.holds_draft h hdistinct room hmem
    exact readsBack_of_holds (h _ hmem) hm hobjects (alphabets_of_draft h hm) harea hinside hentry htable
  · intro property hpos hlast
    have hpos := UInt8.le_iff_toNat_le.1 hpos
    rw [hobjects] at hlast ⊢
    have hshows := Draft.shows_default h ⟨hpos, hlast⟩
    have hstart : 0x1E ≤ objectTable := by decide
    rw [ObjectTable.defaultProperty, if_neg]
    · exact Memory.word_of_shows (hshows.memory hm (.inr (by omega)))
    · rintro (rfl | hlarge)
      · exact absurd hpos (by decide)
      · omega

end Reading

def lampParts : List Part :=
  [.defaultProperty 5 7,
    .object 2 "lämp\r€" ⟨1, 0, 0⟩ [0, 47] [(3, [9]), (7, List.replicate 64 1), (63, [1, 2])],
    .object 1 "" ⟨0, 0, 2⟩ [] [],
    .defaultProperty 5 8]

theorem lampParts_fit : ∀ part ∈ lampParts, part.Fits 4 := by
  have hlamp : ObjectFits 4 2 "lämp\r€" ⟨1, 0, 0⟩ [0, 47]
      [(3, [9]), (7, List.replicate 64 1), (63, [1, 2])] := by
    refine ⟨by decide, by decide, by decide, ?_, by decide +kernel, ?_, by decide⟩
    · simp only [List.forall_mem_cons]
      exact ⟨by decide, by decide, List.forall_mem_nil _⟩
    · simp only [List.forall_mem_cons]
      exact ⟨⟨by decide, by decide⟩, ⟨by decide, by decide⟩, ⟨by decide, by decide⟩, List.forall_mem_nil _⟩
  have hbox : ObjectFits 4 1 "" ⟨0, 0, 2⟩ [] [] :=
    ⟨by decide, by decide, by decide, List.forall_mem_nil _, by decide +kernel, List.forall_mem_nil _, .nil⟩
  have hdefault (value : UInt16) : (Part.defaultProperty 5 value).Fits 4 := by
    change 1 ≤ (5 : UInt8).toNat ∧ (5 : UInt8).toNat ≤ 63
    decide
  simp only [lampParts, List.forall_mem_cons]
  exact ⟨hdefault 7, hlamp, hbox, hdefault 8, List.forall_mem_nil _⟩

theorem built_objects_read_back_lamp :
    ∃ m, build 4 lampParts = .ok m ∧
      ReadsBack m 2 "lämp\r€" ⟨1, 0, 0⟩ [0, 47] [(3, [9]), (7, List.replicate 64 1), (63, [1, 2])] ∧
      ReadsBack m 1 "" ⟨0, 0, 2⟩ [] [] ∧ m.objects.defaultProperty m 5 = .ok 8 := by
  have hroom : propertyArea + (lampParts.map (Part.tableSize 4)).sum ≤ imageSize := by
    simp only [lampParts, List.map, Part.tableSize, length_propertyTable]
    decide +kernel
  obtain ⟨m, hbuild, hobjects, hdefaults⟩ :=
    built_objects_read_back (by decide) lampParts_fit (by decide) hroom
  have hlast : (5 : UInt8).toNat ≤ m.objects.layout.defaultProperties := by
    unfold ObjectTable.layout
    split <;> decide
  refine ⟨m, hbuild, hobjects _ _ _ _ _ ?_, hobjects _ _ _ _ _ ?_, hdefaults 5 (by decide) hlast⟩
  · exact .tail _ (.head _)
  · exact .tail _ (.tail _ (.head _))

end Story

end ZMachine
