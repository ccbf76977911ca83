import Mathlib.Data.List.Pairwise
import Avr.Proofs.Spelling

namespace Avr

open Outcome

namespace Positions

/-- The number whose bits stand at the positions, the least significant first. -/
def extract : Positions → Word → Nat
  | [], _ => 0
  | p :: ps, w => (w.getLsbD p).toNat + 2 * extract ps w

theorem extract_congr {ps : Positions} {w v : Word} (h : ∀ p ∈ ps, w.getLsbD p = v.getLsbD p) :
    extract ps w = extract ps v := by
  induction ps with
  | nil => rfl
  | cons p ps ih =>
    simp only [extract, h p (by simp), ih fun q hq => h q (by simp [hq])]

/-- What is put at the positions is read back, as far as there are positions for it. -/
theorem extract_deposit_self {ps : Positions} (hd : ps.Nodup) (hp : ∀ p ∈ ps, p < 16) (n : Nat) :
    extract ps (deposit ps n) = n % 2 ^ ps.length := by
  induction ps generalizing n with
  | nil => simp [extract, Nat.mod_one]
  | cons p ps ih =>
    obtain ⟨hmem, hd⟩ := List.nodup_cons.mp hd
    have hhead : (deposit (p :: ps) n).getLsbD p = decide (n % 2 = 1) := by
      simp only [deposit, BitVec.getLsbD_or, getLsbD_deposit_of_not_mem hmem, Bool.or_false]
      have hlt := hp p (by simp)
      split
      · next h => simp [h, hlt]
      · next h => simp [h]
    have htail : extract ps (deposit (p :: ps) n) = extract ps (deposit ps (n / 2)) := by
      refine extract_congr (fun q hq => ?_)
      have hne : p ≠ q := fun h => hmem (h ▸ hq)
      simp only [deposit, BitVec.getLsbD_or]
      split
      · simp [BitVec.getLsbD_twoPow, hne]
      · simp
    rw [extract, hhead, htail, ih hd (fun q hq => hp q (by simp [hq])), List.length_cons,
      Nat.pow_succ']
    have := Nat.mod_mul (x := n) (a := 2) (b := 2 ^ ps.length)
    by_cases h : n % 2 = 1
    · simp only [h, decide_true, Bool.toNat_true]
      omega
    · simp only [h, decide_false, Bool.toNat_false]
      omega

/-- Ones at the positions. -/
def mask : Positions → Word
  | [] => 0
  | p :: ps => BitVec.twoPow 16 p ||| mask ps

theorem getLsbD_mask (ps : Positions) {i : Nat} (hi : i < 16) :
    (mask ps).getLsbD i = decide (i ∈ ps) := by
  induction ps with
  | nil => simp [mask]
  | cons p ps ih =>
    rw [mask, BitVec.getLsbD_or, ih, BitVec.getLsbD_twoPow, Bool.eq_iff_iff]
    simp only [Bool.or_eq_true, Bool.and_eq_true, decide_eq_true_eq, List.mem_cons]
    constructor
    · rintro (⟨-, rfl⟩ | h)
      · exact .inl rfl
      · exact .inr h
    · rintro (rfl | h)
      · exact .inl ⟨hi, rfl⟩
      · exact .inr h

end Positions

/-- An opcode with operands laid over it. -/
def Word.overlay (code : Word) (fields : List (Positions × Nat)) : Word :=
  fields.foldl (fun w f => w ||| f.1.deposit f.2) code

namespace Word

variable {code : Word} {fields : List (Positions × Nat)}

theorem getLsbD_overlay (code : Word) (fields : List (Positions × Nat)) (i : Nat) :
    (code.overlay fields).getLsbD i =
      (code.getLsbD i || fields.any fun f => (f.1.deposit f.2).getLsbD i) := by
  induction fields generalizing code with
  | nil => simp [overlay]
  | cons f fields ih =>
    change ((code ||| f.1.deposit f.2).overlay fields).getLsbD i = _
    simp [ih, Bool.or_assoc]

theorem or_right_comm (u v w : Word) : u ||| v ||| w = u ||| w ||| v := by
  ac_rfl

/-- Where no operand reaches, the opcode shows. -/
theorem getLsbD_overlay_of_not_mem {i : Nat} (h : i ∉ fields.flatMap Prod.fst) :
    (code.overlay fields).getLsbD i = code.getLsbD i := by
  have hnone : (fields.any fun f => (f.1.deposit f.2).getLsbD i) = false := by
    rw [List.any_eq_false]
    intro f hf
    rw [Positions.getLsbD_deposit_of_not_mem fun hm => h (List.mem_flatMap.mpr ⟨f, hf, hm⟩)]
    decide
  rw [getLsbD_overlay, hnone, Bool.or_false]

/-- Fields side by side over zeros keep their operands. -/
theorem extract_overlay (hd : (fields.flatMap Prod.fst).Nodup)
    (hz : ∀ i ∈ fields.flatMap Prod.fst, i < 16 ∧ code.getLsbD i = false) {ps : Positions} {n : Nat}
    (h : (ps, n) ∈ fields) : ps.extract (code.overlay fields) = n % 2 ^ ps.length := by
  obtain ⟨hnodup, hdisjoint⟩ := List.nodup_flatMap.mp hd
  have hmem {i : Nat} (hi : i ∈ ps) : i ∈ fields.flatMap Prod.fst :=
    List.mem_flatMap.mpr ⟨_, h, hi⟩
  rw [← Positions.extract_deposit_self (hnodup _ h) fun i hi => (hz i (hmem hi)).1]
  refine Positions.extract_congr fun i hi => ?_
  rw [getLsbD_overlay, (hz i (hmem hi)).2, Bool.false_or, Bool.eq_iff_iff, List.any_eq_true]
  constructor
  · rintro ⟨f, hf, hbit⟩
    -- The bit of another field would lie at a position of both.
    have hfi : i ∈ f.1 := by
      by_contra hfi
      rw [Positions.getLsbD_deposit_of_not_mem hfi] at hbit
      cases hbit
    by_cases hfe : f = (ps, n)
    · rw [hfe] at hbit
      exact hbit
    · have hsymm : Std.Symm (Function.onFun List.Disjoint (Prod.fst (α := Positions) (β := Nat))) :=
        ⟨fun _ _ hab _ ha hb => hab hb ha⟩
      exact (hdisjoint.forall hf h hfe hfi hi).elim
  · intro hbit
    exact ⟨_, h, hbit⟩

end Word

namespace Slot

/-- How many bits of a word the slot takes, if it is a field of its own. -/
def fieldBits : Slot → Nat
  | reg | io5 => 5
  | highReg | evenPair => 4
  | mulReg | bit | statusBit => 3
  | wordPair => 2
  | imm8 => 8
  | imm6 | io6 => 6
  | rel7 => 7
  | rel12 => 12
  | pointer | programPointer | displaced | data16 | abs22 => 0

/-- The operand that the bits of a field stand for. -/
def ofBits : Slot → Nat → Operand
  | reg, n => .reg ⟨Fin.ofNat 32 n⟩
  | highReg, n | mulReg, n => .reg ⟨Fin.ofNat 32 (16 + n)⟩
  | evenPair, n => .pair ⟨Fin.ofNat 16 n⟩
  | wordPair, n => .pair ⟨Fin.ofNat 16 (12 + n)⟩
  | rel7, n => .number (Int32.ofInt (BitVec.ofNat 7 n).toInt)
  | rel12, n => .number (Int32.ofInt (BitVec.ofNat 12 n).toInt)
  | _, n => .number (Int32.ofNat n)

theorem ofNat_toNat_mod {k : Int32} {n : Nat} (hn : n < 32) (hmin : 0 ≤ k.toInt)
    (hmax : k.toInt < 2 ^ n) : Int32.ofNat (k.toBitVec.toNat % 2 ^ n) = k := by
  have hk : k.toInt = k.toBitVec.toInt := rfl
  have hpow : 2 ^ n ≤ 2 ^ 31 := Nat.pow_le_pow_right (by decide) (Nat.le_of_lt_succ hn)
  have hlt : k.toBitVec.toNat < 2 ^ n := by
    rw [BitVec.toInt_eq_toNat_cond] at hk
    zify
    split at hk <;> omega
  apply Int32.toInt_inj.mp
  rw [Nat.mod_eq_of_lt hlt, Int32.toInt_ofNat_of_lt (by omega), hk, BitVec.toInt_eq_toNat_cond]
  split <;> omega

theorem takes_mulReg {o : Operand} (h : mulReg.Takes o) :
    ∃ r : Reg, o = .reg r ∧ 16 ≤ r.number ∧ r.number < 24 := by
  obtain ⟨-, m, h⟩ := h
  cases o with
  | reg r =>
    refine ⟨r, rfl, ?_⟩
    by_contra hr
    simp [check, hr] at h
  | _ => cases h

theorem takes_evenPair {o : Operand} (h : evenPair.Takes o) :
    (∃ p, o = .pair p) ∨ ∃ r : Reg, o = .reg r ∧ r.number % 2 = 0 := by
  obtain ⟨-, m, h⟩ := h
  cases o with
  | pair p => exact .inl ⟨p, rfl⟩
  | reg r =>
    refine .inr ⟨r, rfl, ?_⟩
    by_contra hr
    simp [check, hr] at h
  | _ => cases h

theorem takes_wordPair {o : Operand} (h : wordPair.Takes o) :
    (∃ p : Pair, o = .pair p ∧ 12 ≤ p.half.val) ∨
      ∃ r : Reg, o = .reg r ∧ 24 ≤ r.number ∧ r.number % 2 = 0 := by
  obtain ⟨-, m, h⟩ := h
  cases o with
  | pair p =>
    refine .inl ⟨p, rfl, ?_⟩
    by_contra hp
    simp [check, Pair.isWord, hp] at h
  | reg r =>
    refine .inr ⟨r, rfl, ?_⟩
    by_contra hr
    simp [check, hr] at h
  | _ => cases h

theorem plain_pair {s : Slot} (hs : s = .evenPair ∨ s = .wordPair) {r : Reg}
    (hr : r.number % 2 = 0) :
    ∃ p : Pair, s.plain (.reg r) = .pair p ∧ p.half.val = r.number / 2 := by
  have hlow : Pair.ofLow? r = some _ := if_pos hr
  rcases hs with rfl | rfl
  · exact ⟨_, by rw [plain, hlow]; rfl, rfl⟩
  · exact ⟨_, by rw [plain, hlow]; rfl, rfl⟩

theorem reg_ofNat {r : Reg} {n : Nat} (h : n % 32 = r.number) :
    Operand.reg ⟨Fin.ofNat 32 n⟩ = .reg r :=
  congrArg (fun i => Operand.reg ⟨i⟩) (Fin.ext h)

theorem pair_ofNat {p : Pair} {n : Nat} (h : n % 16 = p.half.val) :
    Operand.pair ⟨Fin.ofNat 16 n⟩ = .pair p :=
  congrArg (fun i => Operand.pair ⟨i⟩) (Fin.ext h)

theorem number_ofField {k : Int32} (len : Nat) (hlen : len < 32) (hmin : -2 ^ len ≤ k.toInt)
    (hmax : k.toInt < 2 ^ len) :
    Operand.number (Int32.ofInt
      (BitVec.ofNat (len + 1) (k.toBitVec.toNat % 2 ^ (len + 1))).toInt) = .number k := by
  have hcut : BitVec.ofNat (len + 1) (k.toBitVec.toNat % 2 ^ (len + 1)) =
      BitVec.ofNat (len + 1) k.toBitVec.toNat := BitVec.eq_of_toNat_eq (by simp)
  rw [hcut, toInt_field len hlen hmin hmax, Int32.ofInt_toInt]

theorem ofBits_bits {s : Slot} {o : Operand} (hs : s.fieldBits ≠ 0) (h : s.Takes o) :
    s.ofBits (o.bits s % 2 ^ s.fieldBits) = s.plain o := by
  -- Numbers that are not cut need only be shown to fit.
  have hnumber {n : Nat} {max : Int32} (hrange : s.range? = some (0, max)) (hn : n < 32)
      (hmax : max.toInt < 2 ^ n) :
      ∃ k, o = .number k ∧ Int32.ofNat (k.toBitVec.toNat % 2 ^ n) = k := by
    obtain ⟨k, rfl, hmin, hk⟩ := takes_number hrange h
    exact ⟨k, rfl, ofNat_toNat_mod hn hmin (Int.lt_of_le_of_lt hk hmax)⟩
  cases s with
  | reg =>
    obtain ⟨r, rfl⟩ := takes_reg h
    have hlt : r.number < 32 := r.index.isLt
    exact reg_ofNat (by change r.number % 32 % 32 = r.number; omega)
  | highReg =>
    obtain ⟨r, rfl, hr⟩ := takes_highReg h
    have hlt : r.number < 32 := r.index.isLt
    exact reg_ofNat (by change (16 + r.number % 16) % 32 = r.number; omega)
  | mulReg =>
    obtain ⟨r, rfl, hr⟩ := takes_mulReg h
    exact reg_ofNat (by change (16 + r.number % 8) % 32 = r.number; omega)
  | evenPair =>
    rcases takes_evenPair h with ⟨p, rfl⟩ | ⟨r, rfl, hr⟩
    · have hlt := p.half.isLt
      exact pair_ofNat (by change p.half.val % 16 % 16 = p.half.val; omega)
    · obtain ⟨p, hp, hhalf⟩ := plain_pair (.inl rfl) hr
      have hlt : r.number < 32 := r.index.isLt
      rw [hp]
      exact pair_ofNat (by change r.number / 2 % 16 % 16 = p.half.val; omega)
  | wordPair =>
    rcases takes_wordPair h with ⟨p, rfl, hp⟩ | ⟨r, rfl, hmin, hr⟩
    · have hlt := p.half.isLt
      exact pair_ofNat (by change (12 + p.half.val % 4) % 16 = p.half.val; omega)
    · obtain ⟨p, hp, hhalf⟩ := plain_pair (.inr rfl) hr
      have hlt : r.number < 32 := r.index.isLt
      rw [hp]
      exact pair_ofNat (by change (12 + r.number / 2 % 4) % 16 = p.half.val; omega)
  | imm8 =>
    obtain ⟨k, rfl, -⟩ := takes_number rfl h
    refine congrArg Operand.number (Int32.toBitVec_inj.mp (BitVec.eq_of_toNat_eq ?_))
    rw [toNat_byte]
    exact Nat.mod_eq_of_lt (Nat.lt_trans (Nat.mod_lt _ (by decide)) (by decide))
  | imm6 | io6 =>
    obtain ⟨k, rfl, hk⟩ := hnumber (n := 6) rfl (by decide) (by decide)
    exact congrArg Operand.number hk
  | io5 =>
    obtain ⟨k, rfl, hk⟩ := hnumber (n := 5) rfl (by decide) (by decide)
    exact congrArg Operand.number hk
  | bit | statusBit =>
    obtain ⟨k, rfl, hk⟩ := hnumber (n := 3) rfl (by decide) (by decide)
    exact congrArg Operand.number hk
  | rel7 =>
    obtain ⟨k, rfl, hmin, hmax⟩ := takes_number rfl h
    exact number_ofField 6 (by decide) hmin (Int.lt_add_one_of_le hmax)
  | rel12 =>
    obtain ⟨k, rfl, hmin, hmax⟩ := takes_number rfl h
    exact number_ofField 11 (by decide) hmin (Int.lt_add_one_of_le hmax)
  | _ => exact (hs rfl).elim

end Slot

/-- Where an operand of an opcode is found. -/
inductive Part
  /-- The opcode implies it. -/
  | implied (o : Operand)
  | field (slot : Slot) (ps : Positions)
  | displacement (b : Base)
  /-- The second word. -/
  | address
  /-- A far target over both words. -/
  | target

namespace Part

def positions : Part → Positions
  | field _ ps => ps
  | displacement _ => .q6
  | target => .far6
  | implied _ | address => []

def isWide : Part → Bool
  | address | target => true
  | _ => false

/-- What the operand lays over the opcode. -/
def value : Part → Operand → Nat
  | field slot _, o => o.bits slot
  | displacement _, .displaced _ q => q.toBitVec.toNat
  | target, o => o.bits .abs22 / 65536
  | _, _ => 0

/-- The operand in a word and the one after it. -/
def read (w v : Word) : Part → Operand
  | implied o => o
  | field slot ps => slot.ofBits (ps.extract w)
  | displacement b => .displaced b (Int32.ofNat (Positions.extract .q6 w))
  | address => .number (Int32.ofNat v.toNat)
  | target => .number (Int32.ofNat (65536 * Positions.extract .far6 w + v.toNat))

/-- The spelling in which an operand is read back. -/
def plain : Part → Operand → Operand
  | field slot _, o => slot.plain o
  | displacement _, o => Slot.plain .displaced o
  | _, o => o

/-- Operands that can be read back. -/
def Takes : Part → Operand → Prop
  | implied p, o => o = p
  | field slot ps, o => slot.Takes o ∧ slot.fieldBits ≠ 0 ∧ ps.length = slot.fieldBits
  | displacement b, o =>
    o = .pointer (.plain b) ∨ ∃ q, o = .displaced b q ∧ 0 ≤ q.toInt ∧ q.toInt < 64
  | address, o => Slot.data16.Takes o
  | target, o => Slot.abs22.Takes o

theorem read_eq {part : Part} {o : Operand} {w v : Word} (h : part.Takes o)
    (hw : part.positions.extract w = part.value o % 2 ^ part.positions.length)
    (hv : part.isWide → v = BitVec.ofNat 16 (o.bits .imm8)) : part.read w v = part.plain o := by
  cases part with
  | implied p => exact Eq.symm h
  | field slot ps =>
    obtain ⟨ht, hbits, hlen⟩ := h
    change slot.ofBits (ps.extract w) = slot.plain o
    change ps.extract w = o.bits slot % 2 ^ ps.length at hw
    rw [hw, hlen, Slot.ofBits_bits hbits ht]
  | displacement b =>
    change Operand.displaced b (Int32.ofNat (Positions.extract .q6 w)) = Slot.plain .displaced o
    change Positions.extract .q6 w = _ at hw
    rw [hw]
    rcases h with rfl | ⟨q, rfl, hmin, hmax⟩
    · rfl
    · exact congrArg (Operand.displaced b) (Slot.ofNat_toNat_mod (n := 6) (by decide) hmin hmax)
  | address =>
    obtain ⟨k, rfl, hmin, hmax⟩ := Slot.takes_number rfl h
    rw [hv rfl]
    exact congrArg Operand.number (Slot.ofNat_toNat_mod (n := 16) (by decide) hmin
      (Int.lt_add_one_of_le hmax))
  | target =>
    obtain ⟨k, rfl, hmin, hmax⟩ := Slot.takes_number rfl h
    have hk := Slot.ofNat_toNat_mod (n := 22) (by decide) hmin (Int.lt_add_one_of_le hmax)
    change Operand.number (Int32.ofNat (65536 * Positions.extract .far6 w + v.toNat)) = .number k
    change Positions.extract .far6 w = k.toBitVec.toNat / 65536 % 2 ^ 6 at hw
    have hv : v.toNat = k.toBitVec.toNat % 2 ^ 16 := by
      rw [hv rfl]
      rfl
    have hsplit : 65536 * (k.toBitVec.toNat / 65536 % 2 ^ 6) + k.toBitVec.toNat % 2 ^ 16 =
        k.toBitVec.toNat % 2 ^ 22 := by omega
    rw [hw, hv, hsplit, hk]

end Part

/-- An opcode with its operands. -/
structure Pattern where
  mnemonic : Mnemonic
  code : Word
  parts : List Part

namespace Pattern

def positions (p : Pattern) : Positions := p.parts.flatMap Part.positions

/-- The bits that no operand reaches. -/
def fixed (p : Pattern) : Word := ~~~ p.positions.mask

def fits (p : Pattern) (w : Word) : Bool := w &&& p.fixed = p.code

def isWide (p : Pattern) : Bool := p.parts.any Part.isWide

def read (p : Pattern) (w v : Word) : Spelling := ⟨p.mnemonic, p.parts.map (Part.read w v)⟩

def fields (p : Pattern) (os : List Operand) : List (Positions × Nat) :=
  (p.parts.zip os).map fun x => (x.1.positions, x.1.value x.2)

def word (p : Pattern) (os : List Operand) : Word := p.code.overlay (p.fields os)

/-- What goes into the second word. -/
def second (p : Pattern) (os : List Operand) : List Word :=
  ((p.parts.zip os).filter fun x => x.1.isWide).map fun x => BitVec.ofNat 16 (x.2.bits .imm8)

/-- Fields lie inside the word, side by side, over zeros of the opcode, and one operand at most
needs a second word. -/
def Sound (p : Pattern) : Prop :=
  p.positions.Nodup ∧ (∀ i ∈ p.positions, i < 16 ∧ p.code.getLsbD i = false) ∧
    (p.parts.filter Part.isWide).length ≤ 1

instance (p : Pattern) : Decidable p.Sound := inferInstanceAs (Decidable (_ ∧ _))

/-- Some bit that is fixed in both tells the two apart. -/
def Differs (p q : Pattern) : Prop := p.code &&& q.fixed ≠ q.code &&& p.fixed

instance (p q : Pattern) : Decidable (p.Differs q) := inferInstanceAs (Decidable (_ ≠ _))

theorem Differs.not_fits {p q : Pattern} (h : p.Differs q) {w : Word} (hp : p.fits w) :
    ¬ q.fits w := by
  intro hq
  simp only [fits, decide_eq_true_eq] at hp hq
  apply h
  rw [← hp, ← hq, BitVec.and_assoc, BitVec.and_assoc, BitVec.and_comm p.fixed]

variable {p : Pattern} {os : List Operand}

theorem flatMap_fields (h : p.parts.length = os.length) :
    (p.fields os).flatMap Prod.fst = p.positions := by
  rw [fields, List.flatMap_map, positions, ← List.map_fst_zip (Nat.le_of_eq h), List.flatMap_map,
    List.map_fst_zip (Nat.le_of_eq h)]

theorem fits_word (hp : p.Sound) (h : p.parts.length = os.length) : p.fits (p.word os) := by
  refine decide_eq_true (BitVec.eq_of_getLsbD_eq fun i hi => ?_)
  rw [BitVec.getLsbD_and, fixed, BitVec.getLsbD_not, Positions.getLsbD_mask _ hi]
  by_cases hm : i ∈ p.positions
  · simp [hm, (hp.2.1 i hm).2]
  · rw [word, Word.getLsbD_overlay_of_not_mem (flatMap_fields h ▸ hm)]
    simp [hm, hi]

theorem map_eq_zipWith {f : Part → Operand} {g : Part → Operand → Operand} {parts : List Part}
    (hlen : parts.length = os.length) (h : ∀ x ∈ parts.zip os, f x.1 = g x.1 x.2) :
    parts.map f = parts.zipWith g os := by
  induction parts generalizing os with
  | nil => rfl
  | cons part parts ih =>
    obtain ⟨o, os, rfl⟩ := List.exists_cons_of_length_eq_add_one hlen.symm
    have hhead : f part = g part o := h (part, o) (by simp)
    have htail := ih (by simpa using hlen) fun x hx => h x (by simp [hx])
    simp [hhead, htail]

theorem read_word (hp : p.Sound) (h : List.Forall₂ Part.Takes p.parts os) {v : Word}
    (hv : ∀ u ∈ p.second os, v = u) :
    p.read (p.word os) v = ⟨p.mnemonic, p.parts.zipWith Part.plain os⟩ := by
  have hfields := flatMap_fields h.length_eq
  have hpart : ∀ x ∈ p.parts.zip os, x.1.read (p.word os) v = x.1.plain x.2 := by
    intro x hx
    have hf : (x.1.positions, x.1.value x.2) ∈ p.fields os := List.mem_map.mpr ⟨x, hx, rfl⟩
    refine Part.read_eq ((List.forall₂_iff_zip.mp h).2 hx) ?_ fun hwide => hv _ ?_
    · exact Word.extract_overlay (hfields ▸ hp.1) (hfields ▸ hp.2.1) hf
    · exact List.mem_map.mpr ⟨x, List.mem_filter.mpr ⟨hx, hwide⟩, rfl⟩
  exact congrArg (Spelling.mk p.mnemonic) (map_eq_zipWith h.length_eq hpart)

end Pattern

namespace Pointer

/-- `Y` and `Z` alone have no opcode: they are read with a displacement of zero. -/
def hasOpcode : Pointer → Bool
  | plain .y | plain .z => false
  | _ => true

theorem hasOpcode_of {p : Pointer} (h : ∀ b, p = plain b → b = .x) : p.hasOpcode := by
  match p with
  | plain .x | postIncrement b | preDecrement b => rfl
  | plain .y => cases h .y rfl
  | plain .z => cases h .z rfl

def all : List Pointer :=
  [.x, .y, .z].flatMap fun b => [plain b, postIncrement b, preDecrement b]

theorem mem_all (p : Pointer) : p ∈ all := by
  rcases p with b | b | b <;> cases b <;> decide

end Pointer

namespace Mnemonic

open Positions in
/-- The opcodes of a mnemonic. Mnemonics that spell an opcode of another one have none. -/
def patterns (m : Mnemonic) : List Pattern :=
  match m.layout with
  | .fields code ps =>
    if m.alias?.isNone then m.forms.map fun slots => ⟨m, code, slots.zipWith .field ps⟩ else []
  | .twice _ | .complement _ => []
  | .far code => [⟨m, code, [.target]⟩]
  | .load code => [⟨m, code, [.field .reg d5, .address]⟩]
  | .store code => [⟨m, code, [.address, .field .reg d5]⟩]
  | .loadIndirect =>
    (Pointer.all.filter Pointer.hasOpcode).map fun p =>
      ⟨m, p.code, [.field .reg d5, .implied (.pointer p)]⟩
  | .storeIndirect =>
    (Pointer.all.filter Pointer.hasOpcode).map fun p =>
      ⟨m, p.code ||| WordLayout.storeBit, [.implied (.pointer p), .field .reg d5]⟩
  | .loadDisplaced =>
    [.y, .z].map fun b => ⟨m, (Pointer.plain b).code, [.field .reg d5, .displacement b]⟩
  | .storeDisplaced =>
    [.y, .z].map fun b =>
      ⟨m, (Pointer.plain b).code ||| WordLayout.storeBit, [.displacement b, .field .reg d5]⟩
  | .loadProgram bare plain increment =>
    [⟨m, bare, []⟩, ⟨m, plain, [.field .reg d5, .implied (.pointer (.plain .z))]⟩,
      ⟨m, increment, [.field .reg d5, .implied (.pointer (.postIncrement .z))]⟩]

theorem mem_all (m : Mnemonic) : m ∈ all := by
  cases m <;> decide

end Mnemonic

namespace Pattern

def table : List Pattern := Mnemonic.all.flatMap Mnemonic.patterns

theorem table_sound : ∀ p ∈ table, p.Sound := by
  decide +kernel

/-- No word has two opcodes. -/
theorem table_differs : table.Pairwise Differs := by
  decide +kernel

theorem find_fits {p : Pattern} {w : Word} (hp : p ∈ table) (hw : p.fits w) :
    table.find? (·.fits w) = some p := by
  cases hq : table.find? (·.fits w) with
  | none => exact (List.find?_eq_none.mp hq p hp hw).elim
  | some q =>
    by_contra hne
    have hsymm : Std.Symm Differs := ⟨fun _ _ => Ne.symm⟩
    have hdiffers := table_differs.forall (List.mem_of_find?_eq_some hq) hp fun h => hne (h ▸ rfl)
    have hq : q.fits w := List.find?_some (p := fun q : Pattern => q.fits w) hq
    exact hdiffers.not_fits hq hw

/-- The pattern is the opcode of the spelling, and reads its operands from the words. -/
structure Reads (p : Pattern) (x : Spelling) (e : Encoding) : Prop where
  mnemonic : p.mnemonic = x.mnemonic
  takes : List.Forall₂ Part.Takes p.parts x.operands
  plain : p.parts.zipWith Part.plain x.operands = x.plain.operands
  words : e.words = p.word x.operands :: p.second x.operands

end Pattern

/-- Reads words up to their end. -/
def decodeWords : List Word → Option (List Spelling)
  | [] => some []
  | w :: ws =>
    match Pattern.table.find? (·.fits w) with
    | none => none
    | some p =>
      if p.isWide then
        match ws with
        | [] => none
        | v :: vs => (decodeWords vs).map (p.read w v :: ·)
      else (decodeWords ws).map (p.read w 0 :: ·)

/-- Reads program memory. -/
def decode (bytes : List UInt8) : Option (List Spelling) := decodeWords (Word.ofBytes bytes)

namespace Pattern

variable {p : Pattern} {x : Spelling} {e : Encoding}

theorem length_second {os : List Operand} (hlen : p.parts.length = os.length) :
    (p.second os).length = (p.parts.filter Part.isWide).length := by
  have hparts : (p.parts.zip os).map Prod.fst = p.parts := List.map_fst_zip (Nat.le_of_eq hlen)
  have hfilter : p.parts.filter Part.isWide =
      ((p.parts.zip os).filter fun y => y.1.isWide).map Prod.fst := by
    rw [← hparts, List.filter_map, hparts]
    rfl
  rw [hfilter, second, List.length_map, List.length_map]

theorem second_of_not_isWide (h : p.isWide = false) {os : List Operand}
    (hlen : p.parts.length = os.length) : p.second os = [] := by
  have hnone : p.parts.filter Part.isWide = [] :=
    List.filter_eq_nil_iff.mpr (List.any_eq_false.mp h)
  exact List.eq_nil_of_length_eq_zero (by rw [length_second hlen, hnone]; rfl)

theorem second_of_isWide (hp : p.Sound) (h : p.isWide) {os : List Operand}
    (hlen : p.parts.length = os.length) : ∃ v, p.second os = [v] := by
  obtain ⟨part, hm, hw⟩ := List.any_eq_true.mp h
  have hpos : 0 < (p.parts.filter Part.isWide).length :=
    List.length_pos_of_mem (List.mem_filter.mpr ⟨hm, hw⟩)
  refine List.length_eq_one_iff.mp ?_
  rw [length_second hlen]
  exact Nat.le_antisymm hp.2.2 hpos

theorem Reads.decodeWords_append (hp : p ∈ table) (h : p.Reads x e) (rest : List Word) :
    decodeWords (e.words ++ rest) = (decodeWords rest).map (x.plain :: ·) := by
  have hsound := table_sound p hp
  have hlen := h.takes.length_eq
  have hread {v : Word} (hv : ∀ u ∈ p.second x.operands, v = u) :
      p.read (p.word x.operands) v = x.plain := by
    rw [read_word hsound h.takes hv, h.plain, h.mnemonic]
    rfl
  rw [h.words, List.cons_append, decodeWords, find_fits hp (fits_word hsound hlen)]
  change (if p.isWide then _ else _) = _
  by_cases hw : p.isWide
  · obtain ⟨v, hv⟩ := second_of_isWide hsound hw hlen
    have hr := hread (v := v) (by simp [hv])
    rw [if_pos hw, hv, ← hr]
    rfl
  · have hs := second_of_not_isWide (by simpa using hw) hlen
    have hr := hread (v := 0) (by simp [hs])
    rw [if_neg hw, hs, hr]
    rfl

end Pattern

/-- The shapes of an opcode that is no alias. -/
inductive OpcodeForm (m : Mnemonic) : Prop
  | fields (code : Word) (ps : List Positions) (slots : List Slot)
      (layout : m.layout = .fields code ps) (forms : m.forms = [slots])
      (widths : List.Forall₂ (fun s p => s.fieldBits ≠ 0 ∧ List.length p = s.fieldBits) slots ps)
  | far (code : Word) (layout : m.layout = .far code) (forms : m.forms = [[.abs22]])
  | load (code : Word) (layout : m.layout = .load code) (forms : m.forms = [[.reg, .data16]])
  | store (code : Word) (layout : m.layout = .store code) (forms : m.forms = [[.data16, .reg]])
  | loadDisplaced (layout : m.layout = .loadDisplaced) (forms : m.forms = [[.reg, .displaced]])
  | storeDisplaced (layout : m.layout = .storeDisplaced) (forms : m.forms = [[.displaced, .reg]])
  | loadProgram (bare plain increment : Word)
      (layout : m.layout = .loadProgram bare plain increment)
      (forms : m.forms = [[], [.reg, .programPointer]])

theorem Mnemonic.opcodeForm {m : Mnemonic} (h : m.alias? = none) : OpcodeForm m := by
  cases m
  case jmp | call => exact .far _ rfl rfl
  case lds => exact .load _ rfl rfl
  case sts => exact .store _ rfl rfl
  case ldd => exact .loadDisplaced rfl rfl
  case std => exact .storeDisplaced rfl rfl
  case lpm | elpm => exact .loadProgram _ _ _ rfl rfl
  all_goals cases h
  all_goals exact .fields _ _ _ rfl rfl (by decide)

namespace OpcodeForm

variable {slots : List Slot} {ps : List Positions} {os : List Operand}

theorem takes_fields
    (hw : List.Forall₂ (fun s p => s.fieldBits ≠ 0 ∧ List.length p = s.fieldBits) slots ps)
    (h : List.Forall₂ Slot.Takes slots os) :
    List.Forall₂ Part.Takes (slots.zipWith .field ps) os := by
  induction hw generalizing os with
  | nil =>
    cases h
    exact .nil
  | cons hw _ ih =>
    cases h with
    | cons ht h => exact .cons ⟨ht, hw⟩ (ih h)

theorem plain_fields (hlen : slots.length = ps.length) :
    (slots.zipWith .field ps).zipWith Part.plain os = slots.zipWith Slot.plain os := by
  induction slots generalizing ps os with
  | nil => simp
  | cons s slots ih =>
    obtain ⟨p, ps, rfl⟩ := List.exists_cons_of_length_eq_add_one hlen.symm
    cases os with
    | nil => simp
    | cons o os =>
      have hlen : slots.length = ps.length := by simpa using hlen
      rw [List.zipWith_cons_cons, List.zipWith_cons_cons, ih hlen]
      rfl

theorem place_fields (m : Mnemonic) (code : Word) :
    WordLayout.place code ps slots os = Pattern.word ⟨m, code, slots.zipWith .field ps⟩ os := by
  induction ps generalizing code slots os with
  | nil => simp [WordLayout.place, Pattern.word, Pattern.fields, Word.overlay]
  | cons p ps ih =>
    match slots, os with
    | [], os => simp [WordLayout.place, Pattern.word, Pattern.fields, Word.overlay]
    | s :: slots, [] => simp [WordLayout.place, Pattern.word, Pattern.fields, Word.overlay]
    | s :: slots, o :: os =>
      rw [WordLayout.place, ih]
      rfl

theorem isWide_fields (m : Mnemonic) (code : Word) (slots : List Slot) (ps : List Positions) :
    Pattern.isWide ⟨m, code, slots.zipWith .field ps⟩ = false := by
  induction slots generalizing ps with
  | nil => rfl
  | cons s slots ih =>
    cases ps with
    | nil => rfl
    | cons p ps => exact ih ps

theorem takes_displacement {o : Operand} (h : Slot.displaced.Takes o) :
    ∃ b ∈ [Base.y, .z], (Part.displacement b).Takes o ∧
      o.displacedCode =
        (Pointer.plain b).code ||| Positions.deposit .q6 ((Part.displacement b).value o) := by
  obtain ⟨-, m, h⟩ := h
  have hpointer (b : Base) : (Operand.pointer (.plain b)).displacedCode =
      (Pointer.plain b).code ||| Positions.deposit .q6 0 := by
    rw [Positions.deposit_zero, BitVec.or_zero]
    rfl
  have hrange {b : Base} {q : Int32} (hb : b ∈ [Base.y, .z])
      (h : (if 0 ≤ q ∧ q < 64 then .ok () else .error (EncodingError.outOfRange m 0 63 q)) =
        Except.ok ()) :
      ∃ b' ∈ [Base.y, .z], (Part.displacement b').Takes (.displaced b q) ∧
        (Operand.displaced b q).displacedCode =
          (Pointer.plain b').code ||| Positions.deposit .q6 q.toBitVec.toNat := by
    split at h
    · next hq =>
      exact ⟨b, hb,
        .inr ⟨q, rfl, Int32.le_iff_toInt_le.mp hq.1, Int32.lt_iff_toInt_lt.mp hq.2⟩, rfl⟩
    · cases h
  match o with
  | .displaced .y q => exact hrange (by decide) h
  | .displaced .z q => exact hrange (by decide) h
  | .pointer (.plain .y) => exact ⟨.y, by decide, .inl rfl, hpointer .y⟩
  | .pointer (.plain .z) => exact ⟨.z, by decide, .inl rfl, hpointer .z⟩

theorem takes_programPointer {o : Operand} (h : Slot.programPointer.Takes o) :
    o = .pointer (.plain .z) ∨ o = .pointer (.postIncrement .z) := by
  obtain ⟨-, m, h⟩ := h
  match o with
  | .pointer (.plain .z) => exact .inl rfl
  | .pointer (.postIncrement .z) => exact .inr rfl

/-- An opcode that is no alias is found by its pattern. -/
theorem reads {m : Mnemonic} {e : Encoding} (hm : OpcodeForm m) (ha : m.alias? = none)
    (h : Spelling.Encodes ⟨m, os⟩ e) : ∃ p ∈ m.patterns, p.Reads ⟨m, os⟩ e := by
  obtain ⟨slots, form, takes, rfl⟩ := h
  change m.formOfLength? os.length = some slots at form
  change List.Forall₂ Slot.Takes slots os at takes
  have hplain : (Spelling.plain ⟨m, os⟩).operands = slots.zipWith Slot.plain os := by
    simp [Spelling.plain, Spelling.slots, form]
  cases hm with
  | fields code ps slots' layout forms widths =>
    obtain rfl := Mnemonic.eq_of_formOfLength forms form
    refine ⟨⟨m, code, slots.zipWith .field ps⟩, ?_, rfl, takes_fields widths takes, ?_, ?_⟩
    · simp [Mnemonic.patterns, layout, forms, ha]
    · rw [hplain, plain_fields widths.length_eq]
    · have hlen := (takes_fields widths takes).length_eq
      rw [layout, Pattern.second_of_not_isWide (isWide_fields ..) hlen, ← place_fields]
      rfl
  | far code layout forms =>
    obtain rfl := Mnemonic.eq_of_formOfLength forms form
    obtain _ | ⟨hk, _ | _⟩ := takes
    refine ⟨⟨m, code, [.target]⟩, by simp [Mnemonic.patterns, layout], rfl, .cons hk .nil, ?_, ?_⟩
    · rw [hplain]
      rfl
    · rw [layout]
      rfl
  | load code layout forms =>
    obtain rfl := Mnemonic.eq_of_formOfLength forms form
    obtain _ | ⟨hr, _ | ⟨hk, _ | _⟩⟩ := takes
    refine ⟨⟨m, code, [.field .reg .d5, .address]⟩, by simp [Mnemonic.patterns, layout], rfl,
      .cons ⟨hr, by decide, rfl⟩ (.cons hk .nil), ?_, ?_⟩
    · rw [hplain]
      rfl
    · rw [layout]
      exact congrArg (· :: _) BitVec.or_zero.symm
  | store code layout forms =>
    obtain rfl := Mnemonic.eq_of_formOfLength forms form
    obtain _ | ⟨hk, _ | ⟨hr, _ | _⟩⟩ := takes
    refine ⟨⟨m, code, [.address, .field .reg .d5]⟩, by simp [Mnemonic.patterns, layout], rfl,
      .cons hk (.cons ⟨hr, by decide, rfl⟩ .nil), ?_, ?_⟩
    · rw [hplain]
      rfl
    · rw [layout]
      exact congrArg (fun w => (w ||| _) :: _) BitVec.or_zero.symm
  | loadDisplaced layout forms =>
    obtain rfl := Mnemonic.eq_of_formOfLength forms form
    obtain _ | ⟨hr, _ | ⟨hq, _ | _⟩⟩ := takes
    obtain ⟨b, hb, htakes, hcode⟩ := takes_displacement hq
    refine ⟨⟨m, (Pointer.plain b).code, [.field .reg .d5, .displacement b]⟩, ?_, rfl,
      .cons ⟨hr, by decide, rfl⟩ (.cons htakes .nil), ?_, ?_⟩
    · rw [Mnemonic.patterns, layout]
      exact List.mem_map.mpr ⟨b, hb, rfl⟩
    · rw [hplain]
      rfl
    · rw [layout]
      exact congrArg (fun w => [w]) ((congrArg (· ||| _) hcode).trans (Word.or_right_comm ..))
  | storeDisplaced layout forms =>
    obtain rfl := Mnemonic.eq_of_formOfLength forms form
    obtain _ | ⟨hq, _ | ⟨hr, _ | _⟩⟩ := takes
    obtain ⟨b, hb, htakes, hcode⟩ := takes_displacement hq
    refine ⟨⟨m, (Pointer.plain b).code ||| WordLayout.storeBit, [.displacement b, .field .reg .d5]⟩,
      ?_, rfl, .cons htakes (.cons ⟨hr, by decide, rfl⟩ .nil), ?_, ?_⟩
    · rw [Mnemonic.patterns, layout]
      exact List.mem_map.mpr ⟨b, hb, rfl⟩
    · rw [hplain]
      rfl
    · rw [layout]
      exact congrArg (fun w => [w ||| _]) ((congrArg (· ||| _) hcode).trans (Word.or_right_comm ..))
  | loadProgram bare plain increment layout forms =>
    have hslots : slots = [] ∨ slots = [.reg, .programPointer] := by
      simpa [forms] using (Mnemonic.formOfLength_some form).1
    rcases hslots with rfl | rfl
    · cases takes
      refine ⟨⟨m, bare, []⟩, by simp [Mnemonic.patterns, layout], rfl, .nil, ?_, ?_⟩
      · rw [hplain]
        rfl
      · rw [layout]
        rfl
    · obtain _ | ⟨hr, _ | ⟨hp, _ | _⟩⟩ := takes
      rcases takes_programPointer hp with rfl | rfl
      · refine ⟨⟨m, plain, [.field .reg .d5, .implied (.pointer (.plain .z))]⟩,
          by simp [Mnemonic.patterns, layout], rfl, .cons ⟨hr, by decide, rfl⟩ (.cons rfl .nil),
          ?_, ?_⟩
        · rw [hplain]
          rfl
        · rw [layout]
          exact congrArg (· :: _) BitVec.or_zero.symm
      · refine ⟨⟨m, increment, [.field .reg .d5, .implied (.pointer (.postIncrement .z))]⟩,
          by simp [Mnemonic.patterns, layout], rfl, .cons ⟨hr, by decide, rfl⟩ (.cons rfl .nil),
          ?_, ?_⟩
        · rw [hplain]
          rfl
        · rw [layout]
          exact congrArg (· :: _) BitVec.or_zero.symm

end OpcodeForm

namespace Spelling

theorem takes_pointer {o : Operand} (h : Slot.pointer.Takes o) : ∃ p, o = .pointer p := by
  obtain ⟨-, m, h⟩ := h
  cases o with
  | pointer p => exact ⟨p, rfl⟩
  | _ => cases h

theorem reads_load {d : Operand} {p : Pointer} {e : Encoding}
    (h : Encodes ⟨.ld, [d, .pointer p]⟩ e) (hp : p.hasOpcode) :
    ∃ q ∈ Mnemonic.ld.patterns, q.Reads ⟨.ld, [d, .pointer p]⟩ e := by
  obtain ⟨slots, form, takes, rfl⟩ := h
  obtain rfl := Mnemonic.eq_of_formOfLength rfl form
  obtain _ | ⟨hr, -⟩ := takes
  refine ⟨⟨.ld, p.code, [.field .reg .d5, .implied (.pointer p)]⟩, ?_, rfl,
    .cons ⟨hr, by decide, rfl⟩ (.cons rfl .nil), rfl, ?_⟩
  · exact List.mem_map.mpr ⟨p, List.mem_filter.mpr ⟨p.mem_all, hp⟩, rfl⟩
  · exact congrArg (· :: _) BitVec.or_zero.symm

theorem reads_store {r : Operand} {p : Pointer} {e : Encoding}
    (h : Encodes ⟨.st, [.pointer p, r]⟩ e) (hp : p.hasOpcode) :
    ∃ q ∈ Mnemonic.st.patterns, q.Reads ⟨.st, [.pointer p, r]⟩ e := by
  obtain ⟨slots, form, takes, rfl⟩ := h
  obtain rfl := Mnemonic.eq_of_formOfLength rfl form
  obtain _ | ⟨-, _ | ⟨hr, -⟩⟩ := takes
  refine ⟨⟨.st, p.code ||| WordLayout.storeBit, [.implied (.pointer p), .field .reg .d5]⟩, ?_, rfl,
    .cons rfl (.cons ⟨hr, by decide, rfl⟩ .nil), rfl, ?_⟩
  · exact List.mem_map.mpr ⟨p, List.mem_filter.mpr ⟨p.mem_all, hp⟩, rfl⟩
  · exact congrArg (fun w => (w ||| _) :: _) BitVec.or_zero.symm

/-- Every opcode is found by its pattern. -/
theorem Encodes.reads {x : Spelling} {e : Encoding} (h : x.Encodes e) (hx : x.IsOpcode) :
    ∃ p ∈ x.mnemonic.patterns, p.Reads x e := by
  obtain ⟨m, os⟩ := x
  cases ha : m.alias? with
  | none => exact (Mnemonic.opcodeForm ha).reads ha h
  | some a =>
  -- With the operands of its form every alias but `ld` and `st` stands for another opcode.
  have hx : a.expand? os = none := by simpa [IsOpcode, ha] using hx
  obtain ⟨slots, form, takes, he⟩ := id h
  change m.formOfLength? os.length = some slots at form
  change List.Forall₂ Slot.Takes slots os at takes
  cases a with
  | twice t =>
    obtain ⟨_, _, _, _, forms⟩ := Mnemonic.alias_twice ha
    obtain rfl := Mnemonic.eq_of_formOfLength forms form
    obtain _ | ⟨_, _ | _⟩ := takes
    cases hx
  | same t => cases hx
  | complement t =>
    obtain ⟨_, _, _, _, forms⟩ := Mnemonic.alias_complement ha
    obtain rfl := Mnemonic.eq_of_formOfLength forms form
    obtain _ | ⟨_, _ | ⟨hk, _ | _⟩⟩ := takes
    obtain ⟨k, rfl, -⟩ := Slot.takes_number rfl hk
    cases hx
  | ones t =>
    obtain ⟨_, _, _, _, forms⟩ := Mnemonic.alias_ones ha
    obtain rfl := Mnemonic.eq_of_formOfLength forms form
    obtain _ | ⟨_, _ | _⟩ := takes
    cases hx
  | flag t n =>
    obtain ⟨_, _, _, _, forms⟩ := Mnemonic.alias_flag ha
    obtain rfl := Mnemonic.eq_of_formOfLength forms form
    cases takes
    cases hx
  | branch t n =>
    obtain ⟨_, _, _, _, forms⟩ := Mnemonic.alias_branch ha
    obtain rfl := Mnemonic.eq_of_formOfLength forms form
    obtain _ | ⟨_, _ | _⟩ := takes
    cases hx
  | load t =>
    obtain ⟨rfl, rfl⟩ := Mnemonic.alias_load ha
    obtain rfl := Mnemonic.eq_of_formOfLength rfl form
    obtain _ | ⟨hd, _ | ⟨hp, _ | _⟩⟩ := takes
    obtain ⟨p, rfl⟩ := takes_pointer hp
    exact reads_load h (Pointer.hasOpcode_of fun b hb => by simp_all [AliasOf.expand?])
  | store t =>
    obtain ⟨rfl, rfl⟩ := Mnemonic.alias_store ha
    obtain rfl := Mnemonic.eq_of_formOfLength rfl form
    obtain _ | ⟨hp, _ | ⟨hr, _ | _⟩⟩ := takes
    obtain ⟨p, rfl⟩ := takes_pointer hp
    exact reads_store h (Pointer.hasOpcode_of fun b hb => by simp_all [AliasOf.expand?])

/-- What is decoded is the canonical spelling. -/
theorem Encodes.decodeWords_append {x : Spelling} {e : Encoding} (h : x.Encodes e)
    (rest : List Word) :
    decodeWords (e.words ++ rest) = (decodeWords rest).map (x.canonical :: ·) := by
  obtain ⟨p, hp, hr⟩ := h.unalias.reads (isOpcode_unalias x)
  exact hr.decodeWords_append (List.mem_flatMap.mpr ⟨_, Mnemonic.mem_all _, hp⟩) rest

end Spelling

theorem Encoding.ofBytes_append (e : Encoding) (rest : List UInt8) :
    Word.ofBytes (e.bytes ++ rest) = e.words ++ Word.ofBytes rest := by
  cases e with
  | single w => exact w.ofBytes_bytes rest
  | double w v =>
    rw [bytes, List.append_assoc, Word.ofBytes_bytes, Word.ofBytes_bytes]
    rfl

theorem decode_encodings {is : List Instruction} {es : List Encoding}
    (h : List.Forall₂ (fun i e => i.encode = .ok e) is es) :
    decode (es.flatMap Encoding.bytes) = some (is.map Instruction.canonical) := by
  induction h with
  | nil => rfl
  | @cons i e is es hi _ ih =>
    unfold decode at ih ⊢
    rw [List.flatMap_cons, e.ofBytes_append, (Instruction.encodes hi).decodeWords_append, ih]
    rfl

/-- Machine code is decoded to the canonical spellings of its instructions, and no two accepted
instructions share a canonical spelling that are not spellings of one another. -/
theorem decode_inverts_encode {is : List Instruction} {es : List Encoding}
    (h : is.mapM Instruction.encode = .ok es) :
    decode (es.flatMap Encoding.bytes) = some (is.map Instruction.canonical) ∧
      (∀ (js : List Instruction) (fs : List Encoding), js.mapM Instruction.encode = .ok fs →
        fs.flatMap Encoding.bytes = es.flatMap Encoding.bytes →
        js.map Instruction.canonical = is.map Instruction.canonical) ∧
      ∀ i ∈ is, ∀ (j : Instruction) (f : Encoding), j.encode = .ok f →
        (i.canonical = j.canonical ↔ Relation.EqvGen Spelling.Respells i.spelling j.spelling) := by
  have hes := mapM_ok h
  refine ⟨decode_encodings hes, ?_, ?_⟩
  · intro js fs hjs hbytes
    have hdecode := decode_encodings (mapM_ok hjs)
    rw [hbytes, decode_encodings hes] at hdecode
    exact (Option.some.inj hdecode).symm
  · intro i hi j f hj
    obtain ⟨e, -, he⟩ := mem_of_forall₂ (hes.flip) hi
    exact Spelling.canonical_eq_iff (Instruction.encodes he) (Instruction.encodes hj)

/-- Aliases, a cut byte and opcodes of two words, the second of which looks like an opcode. -/
def sampleCode : List Instruction :=
  [⟨.cbr, [.reg ⟨17⟩, .number 15], none⟩, ⟨.jmp, [.number 0x2c10ff], none⟩,
    ⟨.ld, [.reg ⟨4⟩, .pointer (.plain .y)], none⟩, ⟨.adiw, [.reg ⟨24⟩, .number 33], none⟩,
    ⟨.lds, [.reg ⟨31⟩, .number 0x940c], none⟩, ⟨.ldi, [.reg ⟨16⟩, .number (-1)], none⟩,
    ⟨.brne, [.number (-5)], none⟩]

def sampleWords : List Encoding :=
  [.single 0x7f10, .double 0x956c 0x10ff, .single 0x8048, .single 0x9681, .double 0x91f0 0x940c,
    .single 0xef0f, .single 0xf7d9]

theorem decode_inverts_encode_sample :
    sampleCode.mapM Instruction.encode = .ok sampleWords ∧
      decode (sampleWords.flatMap Encoding.bytes) = some
        [⟨.andi, [.reg ⟨17⟩, .number 240]⟩, ⟨.jmp, [.number 0x2c10ff]⟩,
          ⟨.ldd, [.reg ⟨4⟩, .displaced .y 0]⟩, ⟨.adiw, [.pair ⟨12⟩, .number 33]⟩,
          ⟨.lds, [.reg ⟨31⟩, .number 0x940c]⟩, ⟨.ldi, [.reg ⟨16⟩, .number 255]⟩,
          ⟨.brbc, [.number 1, .number (-5)]⟩] :=
  have hwords : sampleCode.mapM Instruction.encode = .ok sampleWords := rfl
  ⟨hwords, (decode_inverts_encode hwords).1.trans rfl⟩

end Avr
