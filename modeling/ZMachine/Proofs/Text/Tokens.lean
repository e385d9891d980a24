import Mathlib.Data.List.Forall2
import Mathlib.Data.List.TakeWhile
import ZMachine.Proofs.Action
import ZMachine.Text.Decode

/-!
The grammar of Z-characters. A token is a run of shifts, of which the last counts, and what they apply
to: a blank, an abbreviation, a ten-bit code or a letter. Every sequence of Z-characters is in one way
only a sequence of tokens and the start of a token that was not finished, and spelling it gives the
meanings of its tokens one after the other.
-/

namespace ZMachine

inductive Token where
  | space
  | abbreviation (n : Nat)
  | code (zscii : UInt16)
  | letter (r : Fin 3) (z : Zchar)
  deriving DecidableEq

namespace Token

def IsShift (z : Zchar) : Prop := z = 4 ∨ z = 5

instance : DecidablePred IsShift := fun z => inferInstanceAs (Decidable (z = 4 ∨ z = 5))

def shifted (r : Fin 3) (shifts : List Zchar) : Fin 3 :=
  (shifts.getLast?.map fun z => if z = 4 then 1 else 2).getD r

inductive Core (r : Fin 3) : List Zchar → Token → Prop where
  | space : Core r [0] .space
  | abbreviation {c : Zchar} (k : Zchar) (hc : 1 ≤ c ∧ c ≤ 3) :
      Core r [c, k] (.abbreviation (32 * (c.val - 1) + k.val))
  | code (h l : Zchar) (hr : r = 2) : Core r [6, h, l] (.code (UInt16.ofNat (32 * h.val + l.val)))
  | letter {z : Zchar} (hz : 6 ≤ z) (hr : ¬ (r = 2 ∧ z = 6)) : Core r [z] (.letter r z)

def Written (zs : List Zchar) (tok : Token) : Prop :=
  ∃ shifts core, zs = shifts ++ core ∧ (∀ z ∈ shifts, IsShift z) ∧ Core (shifted 0 shifts) core tok

/-- These Z-characters start a token and do not finish it. -/
def Unfinished (zs : List Zchar) : Prop := ∃ more tok, more ≠ [] ∧ Written (zs ++ more) tok

inductive Sequence : List Zchar → List Token → Prop where
  | nil : Sequence [] []
  | cons {xs zs : List Zchar} {tok : Token} {toks : List Token} (h : Written xs tok) (hs : Sequence zs toks) :
      Sequence (xs ++ zs) (tok :: toks)

/-- The tokens of a sequence of Z-characters; an unfinished one at its end does not count. -/
def Tokenised (zs : List Zchar) (toks : List Token) : Prop :=
  ∃ whole rest, zs = whole ++ rest ∧ Sequence whole toks ∧ Unfinished rest

/-- Somewhere a token starts with a bank of abbreviations. -/
def Refers (zs : List Zchar) : Prop :=
  ∃ whole toks shifts c post, zs = whole ++ (shifts ++ c :: post) ∧ Sequence whole toks ∧
    (∀ z ∈ shifts, IsShift z) ∧ 1 ≤ c ∧ c ≤ 3

def first? (r : Fin 3) : List Zchar → Option (Token × List Zchar)
  | [] => none
  | z :: zs =>
    if z = 4 then first? 1 zs
    else if z = 5 then first? 2 zs
    else if z = 0 then some (.space, zs)
    else if z ≤ 3 then
      match zs with
      | k :: zs => some (.abbreviation (32 * (z.val - 1) + k.val), zs)
      | [] => none
    else if z = 6 ∧ r = 2 then
      match zs with
      | h :: l :: zs => some (.code (UInt16.ofNat (32 * h.val + l.val)), zs)
      | _ => none
    else some (.letter r z, zs)

variable {r : Fin 3} {tok : Token} {toks : List Token} {zs xs shifts core rest : List Zchar}

theorem shifted_cons (r : Fin 3) (z : Zchar) (shifts : List Zchar) :
    shifted r (z :: shifts) = shifted (if z = 4 then 1 else 2) shifts := by
  cases shifts with
  | nil => rfl
  | cons z' shifts => rfl

theorem zchar_cases : ∀ z : Zchar, IsShift z ∨ z = 0 ∨ (1 ≤ z ∧ z ≤ 3) ∨ 6 ≤ z := by
  unfold IsShift
  decide

theorem bank_ne : ∀ z : Zchar, 1 ≤ z ∧ z ≤ 3 → z ≠ 4 ∧ z ≠ 5 ∧ z ≠ 0 := by decide

theorem letter_ne : ∀ z : Zchar, 6 ≤ z → z ≠ 4 ∧ z ≠ 5 ∧ z ≠ 0 ∧ ¬ z ≤ 3 := by decide

theorem first?_shifts (hs : ∀ z ∈ shifts, IsShift z) (r : Fin 3) (zs : List Zchar) :
    first? r (shifts ++ zs) = first? (shifted r shifts) zs := by
  induction shifts generalizing r with
  | nil => rfl
  | cons z shifts ih =>
    have hrest := ih fun z' hz' => hs z' (List.mem_cons_of_mem z hz')
    rw [shifted_cons]
    obtain rfl | rfl : IsShift z := hs z List.mem_cons_self
    · exact hrest 1
    · exact hrest 2

theorem first?_core (h : Core r core tok) (zs : List Zchar) : first? r (core ++ zs) = some (tok, zs) := by
  cases h with
  | space => rfl
  | @abbreviation c k hc => simp [first?, bank_ne c hc, hc]
  | code h l hr =>
    subst hr
    rfl
  | @letter z hz hr =>
    have hletter : ¬ (z = 6 ∧ r = 2) := fun h => hr h.symm
    simp [first?, letter_ne z hz, hletter]

theorem first?_of_written (h : Written xs tok) (rest : List Zchar) : first? 0 (xs ++ rest) = some (tok, rest) := by
  obtain ⟨shifts, core, rfl, hs, hcore⟩ := h
  rw [List.append_assoc, first?_shifts hs, first?_core hcore]

theorem not_unfinished (h : Written xs tok) (rest : List Zchar) : ¬ Unfinished (xs ++ rest) := by
  rintro ⟨more, tok', hmore, hwritten⟩
  have hfirst := first?_of_written h (rest ++ more)
  have hwhole := first?_of_written hwritten []
  rw [List.append_nil, List.append_assoc, hfirst] at hwhole
  simp [hmore] at hwhole

theorem Sequence.unique {ys rest' : List Zchar} {toks' : List Token} (h : Sequence zs toks)
    (h' : Sequence ys toks') (hrest : Unfinished rest) (hrest' : Unfinished rest') (heq : zs ++ rest = ys ++ rest') :
    toks = toks' := by
  induction h generalizing ys toks' with
  | nil =>
    cases h' with
    | nil => rfl
    | cons hx hs =>
      rw [List.nil_append, List.append_assoc] at heq
      exact absurd (heq ▸ hrest) (not_unfinished hx _)
  | @cons xs zs tok toks hx hs ih =>
    cases h' with
    | nil =>
      rw [List.nil_append, List.append_assoc] at heq
      exact absurd (heq.symm ▸ hrest') (not_unfinished hx _)
    | cons hx' hs' =>
      have hfirst := first?_of_written hx (zs ++ rest)
      rw [← List.append_assoc, heq, List.append_assoc, first?_of_written hx'] at hfirst
      simp only [Option.some.injEq, Prod.mk.injEq] at hfirst
      rw [hfirst.1, ih hs' hfirst.2.symm]

theorem core_or_unfinished (r : Fin 3) (hz : ∀ z ∈ zs.head?, ¬ IsShift z) :
    (∃ core tok rest, zs = core ++ rest ∧ Core r core tok) ∨ ∃ more tok, more ≠ [] ∧ Core r (zs ++ more) tok := by
  match zs, hz with
  | [], _ => exact .inr ⟨[0], .space, by simp, .space⟩
  | z :: zs, hz =>
    obtain hshift | rfl | hbank | hletter := zchar_cases z
    · exact absurd hshift (hz z rfl)
    · exact .inl ⟨[0], .space, zs, rfl, .space⟩
    · match zs with
      | [] => exact .inr ⟨[0], _, by simp, .abbreviation 0 hbank⟩
      | k :: zs => exact .inl ⟨[z, k], _, zs, rfl, .abbreviation k hbank⟩
    · by_cases hcode : r = 2 ∧ z = 6
      · obtain ⟨hr, rfl⟩ := hcode
        match zs with
        | [] => exact .inr ⟨[0, 0], _, by simp, .code 0 0 hr⟩
        | [h] => exact .inr ⟨[0], _, by simp, .code h 0 hr⟩
        | h :: l :: zs => exact .inl ⟨[6, h, l], _, zs, rfl, .code h l hr⟩
      · exact .inl ⟨[z], _, zs, rfl, .letter hletter hcode⟩

theorem written_or_unfinished (zs : List Zchar) :
    (∃ xs tok rest, zs = xs ++ rest ∧ Written xs tok) ∨ Unfinished zs := by
  let shifts := zs.takeWhile (decide <| IsShift ·)
  let tail := zs.dropWhile (decide <| IsShift ·)
  have hzs : zs = shifts ++ tail := List.takeWhile_append_dropWhile.symm
  have hs : ∀ z ∈ shifts, IsShift z := by
    intro z hz
    have hshift := List.mem_takeWhile_imp hz
    simpa using hshift
  have htail : ∀ z ∈ tail.head?, ¬ IsShift z := by
    intro z hz
    have hnot := List.head?_dropWhile_not (decide <| IsShift ·) zs
    rw [show (zs.dropWhile (decide <| IsShift ·)).head? = some z from hz] at hnot
    simpa using hnot
  obtain ⟨core, tok, rest, hcore, h⟩ | ⟨more, tok, hmore, h⟩ := core_or_unfinished (shifted 0 shifts) htail
  · refine .inl ⟨shifts ++ core, tok, rest, ?_, shifts, core, rfl, hs, h⟩
    rw [List.append_assoc, ← hcore, ← hzs]
  · refine .inr ⟨more, tok, hmore, shifts, tail ++ more, ?_, hs, h⟩
    rw [← List.append_assoc, ← hzs]

theorem Written.ne_nil (h : Written xs tok) : xs ≠ [] := by
  obtain ⟨shifts, core, rfl, -, hcore⟩ := h
  cases hcore <;> simp

theorem exists_tokenised (zs : List Zchar) : ∃ toks, Tokenised zs toks := by
  induction hlen : zs.length using Nat.strongRecOn generalizing zs with
  | _ n ih =>
    subst hlen
    obtain ⟨xs, tok, rest, rfl, hx⟩ | hun := written_or_unfinished zs
    · have hpos := List.length_pos_iff.2 hx.ne_nil
      obtain ⟨toks, whole, last, rfl, hs, hlast⟩ := ih rest.length (by simp; omega) rest rfl
      exact ⟨tok :: toks, xs ++ whole, last, by rw [List.append_assoc], .cons hx hs, hlast⟩
    · exact ⟨[], [], zs, rfl, .nil, hun⟩

theorem Tokenised.unique {toks' : List Token} (h : Tokenised zs toks) (h' : Tokenised zs toks') : toks = toks' := by
  obtain ⟨whole, rest, rfl, hs, hrest⟩ := h
  obtain ⟨whole', rest', heq, hs', hrest'⟩ := h'
  exact hs.unique hs' hrest hrest' heq

theorem unfinished_cases (h : Unfinished zs) :
    ∃ shifts tail, zs = shifts ++ tail ∧ (∀ z ∈ shifts, IsShift z) ∧
      (tail = [] ∨ (∃ c, (1 ≤ c ∧ c ≤ 3) ∧ tail = [c]) ∨
        shifted 0 shifts = 2 ∧ (tail = [6] ∨ ∃ h, tail = [6, h])) := by
  obtain ⟨more, tok, hmore, shifts, core, heq, hs, hcore⟩ := h
  obtain ⟨more', hzs, -⟩ | ⟨tail, hzs, hsplit⟩ := List.append_eq_append_iff.1 heq
  · refine ⟨zs, [], by simp, fun z hz => hs z ?_, .inl rfl⟩
    rw [hzs]
    exact List.mem_append_left _ hz
  · refine ⟨shifts, tail, hzs, hs, ?_⟩
    cases hcore with
    | space =>
      cases tail with
      | nil => exact .inl rfl
      | cons z tail => simp_all
    | @abbreviation c k hc =>
      match tail with
      | [] => exact .inl rfl
      | [z] =>
        obtain rfl : c = z := by simpa using (List.cons.inj hsplit).1
        exact .inr (.inl ⟨c, hc, rfl⟩)
      | z :: z' :: tail => simp_all
    | code h l hr =>
      match tail with
      | [] => exact .inl rfl
      | [z] => simp_all
      | [z, z'] => simp_all
      | z :: z' :: z'' :: tail => simp_all
    | letter hz hr =>
      cases tail with
      | nil => exact .inl rfl
      | cons z tail => simp_all

variable {A : Alphabets} {expand : Except Fault (Nat → Except Fault (List Char))} {e : Fault}

def meaning (A : Alphabets) (expand : Except Fault (Nat → Except Fault (List Char))) :
    Token → Except Fault (List Char)
  | .space => .ok [' ']
  | .abbreviation n => do (← expand) n
  | .code zscii => .ok (Zscii.toChar? zscii).toList
  | .letter r z => .ok [A.char r z]

theorem spell_shifts (hs : ∀ z ∈ shifts, IsShift z) (r : Fin 3) (zs : List Zchar) :
    spell A expand (.character r) (shifts ++ zs) = spell A expand (.character (shifted r shifts)) zs := by
  induction shifts generalizing r with
  | nil => rfl
  | cons z shifts ih =>
    have hrest := ih fun z' hz' => hs z' (List.mem_cons_of_mem z hz')
    rw [shifted_cons]
    obtain rfl | rfl : IsShift z := hs z List.mem_cons_self
    · exact hrest 1
    · exact hrest 2

theorem spell_core (h : Core r core tok) (zs : List Zchar) :
    spell A expand (.character r) (core ++ zs) = do
      let text ← meaning A expand tok
      return text ++ (← spell A expand (.character 0) zs) := by
  cases h with
  | space => rfl
  | @abbreviation c k hc =>
    simp only [List.cons_append, List.nil_append, spell, bank_ne c hc, hc.2, ↓reduceIte, meaning]
    cases expand <;> rfl
  | code h l hr =>
    subst hr
    rw [Nat.mul_comm]
    rfl
  | @letter z hz hr =>
    have hletter : ¬ (z = 6 ∧ r = 2) := fun h => hr h.symm
    simp only [List.cons_append, List.nil_append, spell, letter_ne z hz, hletter, ↓reduceIte]
    rfl

theorem spell_written (h : Written xs tok) (rest : List Zchar) :
    spell A expand (.character 0) (xs ++ rest) = do
      let text ← meaning A expand tok
      return text ++ (← spell A expand (.character 0) rest) := by
  obtain ⟨shifts, core, rfl, hs, hcore⟩ := h
  rw [List.append_assoc, spell_shifts hs, spell_core hcore]

theorem spell_sequence (h : Sequence xs toks) (rest : List Zchar) :
    spell A expand (.character 0) (xs ++ rest) = do
      let texts ← toks.mapM (meaning A expand)
      return texts.flatten ++ (← spell A expand (.character 0) rest) := by
  induction h with
  | nil =>
    simp only [List.nil_append, List.mapM_nil, pure_bind, List.flatten_nil, bind_pure]
  | cons hx hs ih =>
    rw [List.append_assoc, spell_written hx, ih]
    simp only [List.mapM_cons, bind_assoc, pure_bind, List.flatten_cons, List.append_assoc]

theorem spell_unfinished (A : Alphabets) (expand : Except Fault (Nat → Except Fault (List Char)))
    (h : Unfinished zs) :
    spell A expand (.character 0) zs = .ok [] ∨
      Refers zs ∧ spell A expand (.character 0) zs = (do let _ ← expand; return []) := by
  obtain ⟨shifts, tail, rfl, hs, rfl | ⟨c, hc, rfl⟩ | ⟨hr, rfl | ⟨h, rfl⟩⟩⟩ := unfinished_cases h
  · rw [spell_shifts hs]
    exact .inl rfl
  · refine .inr ⟨⟨[], [], shifts, c, [], rfl, .nil, hs, hc⟩, ?_⟩
    rw [spell_shifts hs]
    simp only [spell, bank_ne c hc, hc.2, ↓reduceIte]
    rfl
  · rw [spell_shifts hs, hr]
    exact .inl rfl
  · rw [spell_shifts hs, hr]
    exact .inl rfl

theorem Refers.append (h : Sequence xs toks) (hzs : Refers zs) : Refers (xs ++ zs) := by
  induction h with
  | nil => exact hzs
  | cons hx hs ih =>
    obtain ⟨whole, toks, shifts, c, post, heq, hwhole, hshifts, hc⟩ := ih
    exact ⟨_, _, shifts, c, post, by rw [List.append_assoc, heq, List.append_assoc], .cons hx hwhole, hshifts, hc⟩

theorem spell_tokenised (h : Tokenised zs toks) (hexpand : Refers zs → ∃ f, expand = .ok f) :
    spell A expand (.character 0) zs = List.flatten <$> toks.mapM (meaning A expand) := by
  obtain ⟨whole, rest, rfl, hwhole, hrest⟩ := h
  have hnil : spell A expand (.character 0) rest = .ok [] := by
    obtain hnil | ⟨hrefers, hnil⟩ := spell_unfinished A expand hrest
    · exact hnil
    · obtain ⟨f, rfl⟩ := hexpand (hrefers.append hwhole)
      exact hnil
  rw [spell_sequence hwhole, hnil]
  cases toks.mapM (meaning A expand) with
  | error e => rfl
  | ok texts => exact congrArg Except.ok (List.append_nil _)

theorem refers_of_meaning_error {e' : Fault} (h : Written xs tok) (he : meaning A (.error e) tok = .error e')
    (zs : List Zchar) : e' = e ∧ Refers (xs ++ zs) := by
  obtain ⟨shifts, core, rfl, hs, hcore⟩ := h
  cases hcore with
  | space => cases he
  | code => cases he
  | letter => cases he
  | @abbreviation c k hc =>
    cases he
    exact ⟨rfl, [], [], shifts, c, k :: zs, by simp, .nil, hs, hc⟩

theorem spell_of_refers (h : Refers zs) : spell A (.error e) (.character 0) zs = .error e := by
  obtain ⟨whole, toks, shifts, c, post, rfl, hwhole, hs, hc⟩ := h
  induction hwhole with
  | nil =>
    rw [List.nil_append, spell_shifts hs]
    simp only [spell, bank_ne c hc, hc.2, ↓reduceIte]
    rfl
  | @cons xs zs tok toks hx hwhole ih =>
    rw [List.append_assoc, spell_written hx, ih]
    cases hmeaning : meaning A (.error e) tok with
    | ok text => rfl
    | error e' =>
      rw [(refers_of_meaning_error hx hmeaning []).1]
      rfl

theorem refers_of_spell {e' : Fault} (h : spell A (.error e) (.character 0) zs = .error e') : e' = e ∧ Refers zs := by
  obtain ⟨toks, whole, rest, rfl, hwhole, hrest⟩ := exists_tokenised zs
  induction hwhole with
  | nil =>
    obtain hnil | ⟨hrefers, herror⟩ := spell_unfinished A (.error e) hrest
    · rw [List.nil_append, hnil] at h
      cases h
    · rw [List.nil_append, herror] at h
      cases h
      exact ⟨rfl, hrefers⟩
  | @cons xs zs tok toks hx hwhole ih =>
    rw [List.append_assoc, spell_written hx] at h
    rw [List.append_assoc]
    obtain hmeaning | ⟨text, -, h⟩ := error_of_bind_except h
    · exact refers_of_meaning_error hx hmeaning _
    · obtain h | ⟨_, -, h⟩ := error_of_bind_except h
      · obtain ⟨he, hrefers⟩ := ih h
        have happend := hrefers.append (.cons hx .nil)
        rw [List.append_nil] at happend
        exact ⟨he, happend⟩
      · cases h

end Token

end ZMachine
