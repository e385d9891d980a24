import ZMachine.Proofs.Story.Objects

namespace ZMachine

namespace Memory

variable {m n : Memory}

theorem headerByte_congr {k : Fin 64} (h : n.bytes[k.val]? = m.bytes[k.val]?) :
    n.headerByte k = m.headerByte k := by
  have hbyte : n.byte k.val = .ok (m.headerByte k) := by
    rw [byte_eq_ok_iff, h, ← byte_eq_ok_iff]
    exact byte_headerByte m k
  rw [byte_headerByte] at hbyte
  exact Except.ok.inj hbyte

theorem headerWord_of_bytes {k : Fin 63} (hh : n.bytes[k.val]? = m.bytes[k.val]?)
    (hl : n.bytes[k.val + 1]? = m.bytes[k.val + 1]?) : n.headerWord k = m.headerWord k := by
  have hhigh : n.headerByte k.castSucc = m.headerByte k.castSucc := headerByte_congr hh
  have hlow : n.headerByte k.succ = m.headerByte k.succ := headerByte_congr hl
  exact congrArg₂ ofBytes16 hhigh hlow

end Memory

def Core.intact (c : Core) : Bool := c.memory.checksumField = c.checksum

/-- The header bytes that the check reads: the version, the length of the file and the checksum. -/
def CheckByte (b : Nat) : Prop := b = 0x00 ∨ 0x1A ≤ b ∧ b ≤ 0x1D

theorem Core.intact_congr {c d : Core} (loaded : d.pristine = c.pristine)
    (same : ∀ b, CheckByte b → d.memory.bytes[b]? = c.memory.bytes[b]?) : d.intact = c.intact := by
  unfold CheckByte at same
  have version : d.memory.version = c.memory.version := Memory.headerByte_congr (same 0x00 (by omega))
  have length : d.memory.headerWord 0x1A = c.memory.headerWord 0x1A :=
    Memory.headerWord_of_bytes (same 0x1A (by omega)) (same 0x1B (by omega))
  have field : d.memory.checksumField = c.memory.checksumField :=
    Memory.headerWord_of_bytes (same 0x1C (by omega)) (same 0x1D (by omega))
  unfold intact checksum Memory.fileLength
  rw [field, loaded, length, version]

namespace Descriptor

theorem shape_of_verify {version raw : UInt8} :
    (normal version raw).mnemonic = .verify →
      (normal version raw).form = .op0 ∧ (normal version raw).minVersion = 3 := by
  have other {op : Operation} {form : Form} {P : Prop} (h : op.mnemonic ≠ .verify)
      (hm : (⟨op, form, raw⟩ : Descriptor).mnemonic = .verify) : P := absurd hm h
  obtain ⟨n, form, -, hd⟩ | ⟨n, hd⟩ | ⟨n, hd⟩ | ⟨n, hd⟩ := normal_cases version raw
  · rw [hd]
    unfold Operation.ofTwo
    split <;> exact other (by decide)
  · rw [hd]
    unfold Operation.ofOne
    split <;> first | exact other (by decide) | split <;> exact other (by decide)
  · rw [hd]
    unfold Operation.ofNone
    split <;> first
      | exact other (by decide)
      | split <;> exact other (by decide)
      | exact fun _ => ⟨rfl, rfl⟩
  · rw [hd]
    unfold Operation.ofAny
    split <;> first | exact other (by decide) | split <;> exact other (by decide)

theorem extended_ne_verify (raw : UInt8) : (extended raw).mnemonic ≠ .verify := by
  change (Operation.ofExtended raw.toNat).mnemonic ≠ .verify
  unfold Operation.ofExtended
  split <;> decide

end Descriptor

theorem Memory.shape_of_verify {m : Memory} {version : UInt8} {a : Nat} {i : Instruction}
    (h : m.instruction version a = .ok i) (checks : i.mnemonic = .verify) :
    i.operands = [] ∧ i.descriptor.minVersion = 3 := by
  have shape := instruction_shaped h
  obtain ⟨⟨_, b⟩, hf, ⟨⟩⟩ := ok_of_bind_except h
  obtain ⟨opcode, ks, a₁, a₂, a₃, a₄, a₅, hd, -⟩ := Fetch.instruction_parts hf
  obtain hn | ⟨-, extension, he⟩ := Fetch.descriptor_ok hd
  · rw [Instruction.mnemonic, hn] at checks
    obtain ⟨form, since⟩ := Descriptor.shape_of_verify checks
    rw [← hn] at form since
    exact ⟨shape.none form, since⟩
  · rw [Instruction.mnemonic, he] at checks
    exact absurd checks (Descriptor.extended_ne_verify extension)

namespace Machine

variable {η : Type} [Host η] {image : Array UInt8} {host : η} {s t fresh : Machine η} {i : Instruction}

/-- What the check reads in the header is as loaded. -/
def KeepsCheck (image : Array UInt8) (s : Machine η) : Prop :=
  ∀ b, CheckByte b → s.core.memory.bytes[b]? = image[b]?

theorem keepsCheck_boot (h : boot image host = .ok fresh) : KeepsCheck image fresh := by
  intro b hb
  apply boot_bytes h
  unfold CheckByte at hb
  unfold Published
  omega

theorem Reachable.intact_eq (hs : Reachable image s) (ht : Reachable image t) (ks : KeepsCheck image s)
    (kt : KeepsCheck image t) : s.core.intact = t.core.intact := by
  apply Core.intact_congr
  · exact Except.ok.inj (hs.story.1.symm.trans ht.story.1)
  · intro b hb
    rw [ks b hb, kt b hb]

theorem execute_verify (hu : s.upcoming = .ok i) (checks : i.mnemonic = .verify) (late : 3 ≤ s.version) :
    execute i (s.fetched i.next) = branchOn i s.core.intact (s.fetched i.next) := by
  obtain ⟨pc, -, hi⟩ := pc_of_upcoming hu
  obtain ⟨none, since⟩ := Memory.shape_of_verify hi checks
  have hr : resolveOperands i.operands (s.fetched i.next) = .ok [] (s.fetched i.next) := by
    rw [none]
    rfl
  have old : i.descriptor.minVersion ≤ (s.fetched i.next).version := by
    rw [since]
    exact late
  rw [execute_of_family hr old (by rw [checks]; rfl)]
  change executeControl i [] _ = _
  unfold executeControl
  rw [checks]
  rfl

theorem Reachable.version_eq (h : Reachable image s) : s.version = image.getD 0 0 := by
  obtain ⟨hm, hv⟩ := h.story
  have hbyte : s.core.pristine.bytes[0]? = some s.core.pristine.version :=
    Memory.byte_eq_ok_iff.1 (Memory.byte_headerByte s.core.pristine 0)
  rw [Memory.load_bytes hm] at hbyte
  rw [hv, Array.getD_eq_getD_getElem?, hbyte]
  rfl

end Machine

namespace Story

variable {version : UInt8} {parts : List Part} {m : Memory}

theorem lengthUnit_cases (version : UInt8) :
    lengthUnit version = 2 ∨ lengthUnit version = 4 ∨ lengthUnit version = 8 := by
  unfold lengthUnit
  split
  · exact .inl rfl
  · split
    · exact .inr (.inl rfl)
    · exact .inr (.inr rfl)

theorem foldl_bytes (bytes : List UInt8) (sum : UInt16) :
    bytes.foldl (fun sum b => sum + b.toUInt16) sum = sum + UInt16.ofNat (bytes.map UInt8.toNat).sum := by
  induction bytes generalizing sum with
  | nil => simp
  | cons b rest ih =>
    rw [List.foldl_cons, ih, List.map_cons, List.sum_cons, UInt16.ofNat_add, UInt16.ofNat_uInt8ToNat,
      UInt16.add_assoc]

namespace Draft

variable {d : Draft}

@[simp] theorem version_add (d : Draft) (part : Part) : (d.add part).version = d.version := by
  cases part with
  | object number name relations attributes properties =>
    have attributed := (edits_foldl (P := fun _ => True) d (objectEntry d.version number) attributes
      fun _ _ => trivial).version
    simp only [add, placeObject, placeWord, placeRelations_eq, version_place]
    exact attributed
  | _ => rfl

theorem version_draft (version : UInt8) (parts : List Part) : (draft version parts).version = version := by
  suffices h : ∀ d : Draft, (parts.foldl add d).version = d.version from
    (h (blank version)).trans (fields_blank version).1
  induction parts with
  | nil => exact fun _ => rfl
  | cons part rest ih => exact fun d => (ih _).trans (version_add d part)

theorem extract_finish (d : Draft) :
    (d.placeWord 0x1A (UInt16.ofNat (imageSize / lengthUnit d.version))).image.toArray.extract 64 imageSize =
      d.finish.extract 64 imageSize := by
  apply Array.ext_getElem?
  intro k
  rw [Array.getElem?_extract, Array.getElem?_extract, size_finish, Vector.size_toArray, Vector.getElem?_toArray,
    getElem?_placeWord_outside (by omega), getElem?_finish (by omega)]

theorem words_finish (hm : m.bytes = d.finish) :
    m.headerWord 0x1A = UInt16.ofNat (imageSize / lengthUnit d.version) ∧
      m.checksumField = (d.finish.extract 64 imageSize).foldl (fun sum b => sum + b.toUInt16) 0 := by
  let e := d.placeWord 0x1A (UInt16.ofNat (imageSize / lengthUnit d.version))
  let whole := e.placeWord 0x1C (checksum e.image)
  have shows {a : Nat} {bytes : List UInt8} (h : whole.Shows a bytes) : m.Shows a bytes := by
    rw [Memory.shows_iff]
    intro k b hb
    rw [Memory.byte_eq_ok_iff, hm, ← h k b hb, ← Vector.getElem?_toArray]
    rfl
  have hlength : whole.Shows 0x1A (bytesOf (UInt16.ofNat (imageSize / lengthUnit d.version))) := by
    apply Shows.congr (shows_place (show 0x1A + 2 ≤ imageSize by decide))
    intro k _ hk
    change k < 0x1A + 2 at hk
    exact getElem?_placeWord_outside (by omega)
  have hsum : whole.Shows 0x1C (bytesOf (checksum e.image)) := shows_place (show 0x1C + 2 ≤ imageSize by decide)
  constructor
  · exact Except.ok.inj ((Memory.word_headerWord m 0x1A).symm.trans (Memory.word_of_shows (shows hlength)))
  · rw [← extract_finish]
    exact Except.ok.inj ((Memory.word_headerWord m 0x1C).symm.trans (Memory.word_of_shows (shows hsum)))

theorem fileLength_finish (hm : m.bytes = d.finish) (hv : d.image[0]? = some d.version) :
    m.fileLength = imageSize := by
  have version : m.version = d.version := by
    apply Memory.version_of_getElem?
    rw [hm, getElem?_finish (by decide), hv]
  rw [Memory.fileLength, version, (words_finish hm).1]
  obtain h | h | h := lengthUnit_cases d.version
  all_goals
    rw [h]
    decide

end Draft

theorem intact_of_build (hv : (draft version parts).image[0]? = some version) (h : build version parts = .ok m) :
    Core.intact ⟨m, m, []⟩ = true := by
  have hm : m.bytes = (draft version parts).finish := Memory.load_bytes h
  have hlength : m.fileLength = imageSize :=
    Draft.fileLength_finish hm (hv.trans (congrArg some (Draft.version_draft version parts).symm))
  unfold Core.intact Core.checksum
  rw [decide_eq_true_eq]
  dsimp only
  rw [hlength, (Draft.words_finish hm).2, hm]

theorem checksumField_of_build (h : build version parts = .ok m) :
    m.checksumField = UInt16.ofNat ((m.bytes.toList.drop 64).map UInt8.toNat).sum := by
  have hm : m.bytes = (draft version parts).finish := Memory.load_bytes h
  have hsize : m.bytes.toList.length = imageSize := by
    rw [Array.length_toList, hm, Draft.size_finish]
  rw [(Draft.words_finish hm).2, ← hm, ← Array.foldl_toList, foldl_bytes, Array.toList_extract,
    List.extract_eq_take_drop, List.take_of_length_le, UInt16.zero_add]
  rw [List.length_drop, hsize]

end Story

namespace Machine

/-- The check has the same outcome in every machine that a story leads to, as long as what the check reads in
the header is as loaded. For a story that was built it succeeds. -/
theorem verify_judges_image (η : Type) [Host η] :
    (∀ (image : Array UInt8) (host : η) (fresh : Machine η), boot image host = .ok fresh →
        KeepsCheck image fresh ∧
          ∀ s : Machine η, Reachable image s → KeepsCheck image s →
            s.core.intact = fresh.core.intact ∧
              ∀ i, s.upcoming = .ok i → i.mnemonic = .verify → 3 ≤ image.getD 0 0 →
                execute i (s.fetched i.next) = branchOn i fresh.core.intact (s.fetched i.next)) ∧
      ∀ (version : UInt8) (parts : List Story.Part) (m : Memory),
        (Story.draft version parts).image[0]? = some version → Story.build version parts = .ok m →
          m.checksumField = UInt16.ofNat ((m.bytes.toList.drop 64).map UInt8.toNat).sum ∧
            ∀ s : Machine η, Reachable m.bytes s → KeepsCheck m.bytes s → s.core.intact = true := by
  constructor
  · intro image host fresh hboot
    have fresh_kept := keepsCheck_boot hboot
    refine ⟨fresh_kept, fun s reached kept => ?_⟩
    have same := reached.intact_eq (.boot hboot) kept fresh_kept
    refine ⟨same, fun i hu checks late => ?_⟩
    rw [← same]
    apply execute_verify hu checks
    rw [reached.version_eq]
    exact late
  · intro version parts m hv hbuild
    refine ⟨Story.checksumField_of_build hbuild, fun s reached kept => ?_⟩
    have hload : Memory.load m.bytes = .ok m := by
      rw [Memory.load_bytes hbuild]
      exact hbuild
    rw [← Story.intact_of_build hv hbuild]
    exact Core.intact_congr (Except.ok.inj (reached.story.1.symm.trans hload)) kept

def alteredStory : Array UInt8 :=
  -- Changes one of its bytes, then asks for the check.
  #[3, 0, 0, 0, 0, 0, 0, 0x40] ++ Array.replicate 18 0 ++ #[0, 36, 3, 8] ++ Array.replicate 34 0 ++
    #[0xE2, 0x57, 0, 0x47, 9, 0xBD, 0xC2, 0]

def alteredMachine : Machine Playback :=
  let memory : Memory := ⟨alteredStory, by decide, by decide⟩
  start ⟨memory, memory, [{ pc := 0x40 }]⟩ {}

theorem boot_alteredStory : boot alteredStory ({} : Playback) = .ok alteredMachine := rfl

def checkInstruction : Instruction :=
  { address := 0x45, descriptor := .normal 3 0xBD, operands := [], store := none, branch := some ⟨true, 2⟩,
    text := none, next := 0x47 }

theorem verify_judges_image_altered :
    alteredMachine.after.core.memory = alteredMachine.core.memory.set 0x47 9 (by decide) ∧
      alteredMachine.after.upcoming = .ok checkInstruction ∧
      execute checkInstruction (alteredMachine.after.fetched 0x47) =
        branchOn checkInstruction true (alteredMachine.after.fetched 0x47) ∧
      ∃ (m : Memory) (fresh : Machine Playback), Story.build 3 [.bytes 0x2000 [0xBD, 0xC2]] = .ok m ∧
        boot m.bytes {} = .ok fresh ∧ fresh.core.intact = true := by
  have written : alteredMachine.after.core.memory = alteredMachine.core.memory.set 0x47 9 (by decide) := rfl
  have kept : KeepsCheck alteredStory alteredMachine.after := by
    intro b hb
    rw [← keepsCheck_boot boot_alteredStory b hb, written]
    unfold CheckByte at hb
    exact Array.getElem?_set_ne (by decide) (by omega)
  have upcoming : alteredMachine.after.upcoming = .ok checkInstruction := rfl
  have loaded : alteredMachine.core.intact = true := rfl
  obtain ⟨hsame, hbuilt⟩ := verify_judges_image Playback
  obtain ⟨-, hsame⟩ := hsame alteredStory {} alteredMachine boot_alteredStory
  obtain ⟨-, hcheck⟩ := hsame _ (.step (.boot boot_alteredStory)) kept
  refine ⟨written, upcoming, ?_, ?_⟩
  · rw [← loaded]
    exact hcheck checkInstruction upcoming rfl (by decide)
  · have hv : (Story.draft 3 [.bytes 0x2000 [0xBD, 0xC2]]).image[0]? = some 3 := by
      apply Eq.trans (Story.Draft.getElem?_place_outside _) (Story.Draft.version_blank 3)
      decide
    obtain ⟨m, hm⟩ := Story.Draft.load_finish hv (by decide)
    have hbytes := Memory.load_bytes hm
    have early : m.version ≤ 5 := by
      have hversion : m.version = 3 := by
        apply Memory.version_of_getElem?
        rw [hbytes, Story.Draft.getElem?_finish (by decide), hv]
      rw [hversion]
      decide
    have hload : Memory.load m.bytes = .ok m := by
      rw [hbytes]
      exact hm
    have hboot := boot_of_load hload (if_pos early) ({} : Playback)
    exact ⟨m, _, hm, hboot, (hbuilt 3 _ m hv hm).2 _ (.boot hboot) (keepsCheck_boot hboot)⟩

end Machine

end ZMachine
