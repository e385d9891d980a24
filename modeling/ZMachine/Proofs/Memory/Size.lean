import ZMachine.Execute
import ZMachine.Proofs.Action

namespace ZMachine

def Memory.SameSize (m n : Memory) : Prop := n.bytes.size = m.bytes.size

namespace Memory

instance : IsPreorder Memory SameSize where
  refl _ := rfl
  trans _ _ _ h h' := h'.trans h

theorem load_bytes {bytes : Array UInt8} {m : Memory} (h : load bytes = .ok m) :
    m.bytes = bytes := by
  unfold load at h
  dsimp only at h
  split at h
  · cases h
  · split at h
    · cases h
    · split at h
      · cases h
      · cases h
        rfl

theorem setByte_sameSize {a : Nat} {v : UInt8} : Leads SameSize (setByte a v) := by
  intro m
  unfold setByte
  split
  · exact size_set ..
  · rfl

theorem setWord_sameSize {a : Nat} {w : UInt16} : Leads SameSize (setWord a w) := by
  intro m
  unfold setWord
  split
  · simp only [ending_ok, SameSize, size_set]
  · rfl

theorem setDword_sameSize {a : Nat} {d : UInt32} : Leads SameSize (setDword a d) := by
  intro m
  unfold setDword
  split
  · simp only [ending_ok, SameSize, size_set]
  · rfl

theorem setBytes_sameSize {a : Nat} {bytes : List UInt8} : Leads SameSize (setBytes a bytes) := by
  induction bytes generalizing a with
  | nil => exact .pure _
  | cons b rest ih => exact .bind setByte_sameSize fun _ => ih

theorem copyFrom_sameSize {start : Array UInt8} : Leads SameSize (copyFrom start) := by
  intro m
  unfold copyFrom
  split
  · simp only [ending_ok, SameSize, Array.size_append, Array.size_extract]
    omega
  · rfl

@[simp] theorem size_setHeaderByte (k : Fin 64) (v : UInt8) (m : Memory) :
    (m.setHeaderByte k v).bytes.size = m.bytes.size := size_set ..

@[simp] theorem size_setHeaderWord (k : Fin 63) (w : UInt16) (m : Memory) :
    (m.setHeaderWord k w).bytes.size = m.bytes.size := by
  simp only [setHeaderWord, size_set]

theorem byte_of_sameSize {m n : Memory} {a : Nat} {b : UInt8} (h : m.SameSize n)
    (hb : m.byte a = .ok b) : ∃ c, n.byte a = .ok c := by
  unfold byte at hb ⊢
  split at hb
  · next inside => exact ⟨_, dif_pos (h ▸ inside)⟩
  · cases hb

end Memory

open Memory

namespace ObjectTable

variable {t : ObjectTable}

theorem setRelation_sameSize {obj : UInt16} {r : Relation} {value : UInt16} :
    Leads SameSize (t.setRelation obj r value) := by
  refine .bind (.reading _) fun a => ?_
  exact .ite setByte_sameSize setWord_sameSize

theorem remove_sameSize {obj : UInt16} : Leads SameSize (t.remove obj) := by
  refine .bind (.reading _) fun parent => ?_
  refine .ite (.pure _) ?_
  refine .bind (.reading _) fun sibling => .bind (.reading _) fun first => ?_
  have rest : Leads SameSize (do
      t.setRelation obj .parent 0
      t.setRelation obj .sibling 0) :=
    .bind setRelation_sameSize fun _ => setRelation_sameSize
  split
  · exact .bind setRelation_sameSize fun _ => rest
  · exact .bind (.reading _) fun _ => .bind setRelation_sameSize fun _ => rest

theorem insert_sameSize {obj dest : UInt16} : Leads SameSize (t.insert obj dest) := by
  have link : Leads SameSize (do
      let _ ← Action.reading fun _ => t.entry dest
      t.remove obj
      let first ← Action.reading (t.child · dest)
      t.setRelation obj .sibling first
      t.setRelation obj .parent dest
      t.setRelation dest .child obj) :=
    .bind (.reading _) fun _ => .bind remove_sameSize fun _ => .bind (.reading _) fun _ =>
      .bind setRelation_sameSize fun _ => .bind setRelation_sameSize fun _ =>
        setRelation_sameSize
  unfold insert
  split
  · exact .bind (.throw _) fun _ => link
  · exact link

theorem putAttribute_sameSize {obj attr : UInt16} {on : Bool} :
    Leads SameSize (t.putAttribute obj attr on) := by
  refine .ite (.pure _) (.bind (.reading _) fun a => .ite ?_ ?_)
  · exact .bind (.reading _) fun _ => setDword_sameSize
  · exact .bind (.reading _) fun _ => setWord_sameSize

theorem setProperty_sameSize {obj : UInt16} {property : UInt8} {value : UInt16} :
    Leads SameSize (t.setProperty obj property value) := by
  refine .bind (.reading _) fun found => ?_
  cases found with
  | none => exact .throw _
  | some r => exact .ite setByte_sameSize setWord_sameSize

end ObjectTable

theorem Core.writeGlobal_sameSize {n : UInt8} {v : UInt16} : Leads SameSize (Core.writeGlobal n v) :=
  .bind (.reading _) fun _ => setWord_sameSize

namespace Machine

theorem captureChars_sameSize {table : Nat} {count : UInt16} {text : List Char} :
    Leads SameSize (captureChars table count text) := by
  induction text generalizing count with
  | nil => exact .pure _
  | cons c rest ih => exact .bind setByte_sameSize fun _ => ih

theorem capture_sameSize {table : Nat} {text : List Char} : Leads SameSize (capture table text) :=
  .bind (.reading _) fun _ => .bind captureChars_sameSize fun _ => setWord_sameSize

theorem storeLine_sameSize {version : UInt8} {buffer : Nat} {line : String} :
    Leads SameSize (storeLine version buffer line) :=
  .bind (.reading _) fun _ => .bind setBytes_sameSize fun _ =>
    .ite setByte_sameSize setByte_sameSize

theorem storeEntries_sameSize {offset a : Nat} {words : List (Nat × Nat)} :
    Leads SameSize (storeEntries offset a words) := by
  induction words generalizing a with
  | nil => exact .pure _
  | cons word rest ih =>
    exact .bind setWord_sameSize fun _ => .bind setByte_sameSize fun _ =>
      .bind setByte_sameSize fun _ => ih

theorem tokenise_sameSize {version : UInt8} {buffer parse : Nat} {countOnly : Bool} :
    Leads SameSize (tokenise version buffer parse countOnly) :=
  .bind (.reading _) fun _ => .bind (.reading _) fun _ => .bind (.reading _) fun _ =>
    .bind setByte_sameSize fun _ => .ite (.pure _) storeEntries_sameSize

theorem setWords_sameSize {a : Nat} {words : List UInt16} : Leads SameSize (setWords a words) := by
  induction words generalizing a with
  | nil => exact .pure _
  | cons w rest ih => exact .bind setWord_sameSize fun _ => ih

theorem encodeAt_sameSize {version : UInt8} {source n dest : Nat} :
    Leads SameSize (encodeAt version source n dest) :=
  .bind (.reading _) fun _ => .bind (.reading _) fun _ => setWords_sameSize

theorem clearBytes_sameSize {a n : Nat} : Leads SameSize (clearBytes a n) := by
  induction n generalizing a with
  | zero => exact .pure _
  | succ n ih => exact .bind setByte_sameSize fun _ => ih

theorem copyForward_sameSize {source dest n : Nat} : Leads SameSize (copyForward source dest n) := by
  induction n generalizing source dest with
  | zero => exact .pure _
  | succ n ih => exact .bind (.reading _) fun _ => .bind setByte_sameSize fun _ => ih

theorem copyTable_sameSize {first second : Nat} {size : Int} :
    Leads SameSize (copyTable first second size) :=
  .ite clearBytes_sameSize (.ite copyForward_sameSize
    (.bind (.reading _) fun _ => setBytes_sameSize))

theorem pullUserStack_sameSize {stack : Nat} : Leads SameSize (pullUserStack stack) :=
  .bind (.reading _) fun _ => .bind (.reading _) fun _ => .bind setWord_sameSize fun _ => .pure _

theorem pushUserStack_sameSize {stack : Nat} {v : UInt16} : Leads SameSize (pushUserStack stack v) :=
  .bind (.reading _) fun _ => .ite (.pure _)
    (.bind setWord_sameSize fun _ => .bind setWord_sameSize fun _ => .pure _)

theorem dropUserStack_sameSize {stack : Nat} {n : UInt16} : Leads SameSize (dropUserStack stack n) :=
  .bind (.reading _) fun _ => setWord_sameSize

theorem publish_sameSize (version : UInt8) (screen : Screen.Capabilities) (m : Memory) :
    m.SameSize (publish version screen m) := by
  by_cases early : version ≤ 3 <;> by_cases small : version < 5 <;>
    simp only [publish, SameSize, setFlags1, setFlags2, early, small, ↓reduceIte,
      size_setHeaderWord, size_setHeaderByte]

end Machine

end ZMachine
