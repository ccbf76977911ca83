import Avr.Lowering.Fold
import Avr.Proofs.Numbers

namespace Avr

/-- Adds, or subtracts. -/
def accumulate (minus : Bool) (a b : BitVec n) : BitVec n := if minus then a - b else a + b

theorem accumulate_neg (minus : Bool) (a b : BitVec n) :
    accumulate minus a (-b) = accumulate (!minus) a b := by
  cases minus <;> simp [accumulate, BitVec.sub_eq_add_neg]

theorem accumulate_inj {n : Nat} {minus : Bool} {a b c : BitVec n} :
    accumulate minus a b = accumulate minus a c ↔ b = c := by
  cases minus <;> simp [accumulate]

/-- A constant as a word of `w` bytes. -/
def constBits (w : Nat) (k : Int32) : BitVec (8 * w) := BitVec.ofInt (8 * w) k.toInt

theorem ofInt_bmod {n : Nat} (h : n ≤ 32) (i : Int) :
    BitVec.ofInt n (i.bmod (2 ^ 32)) = BitVec.ofInt n i := by
  apply BitVec.eq_of_toInt_eq
  rw [BitVec.toInt_ofInt, BitVec.toInt_ofInt, Int.bmod_bmod_of_dvd (Nat.pow_dvd_pow 2 h)]

theorem constBits_add {w : Nat} (hw : w ≤ 4) (a b : Int32) :
    constBits w (a + b) = constBits w a + constBits w b := by
  rw [constBits, Int32.toInt_add, ofInt_bmod (by omega), BitVec.ofInt_add]
  rfl

/-- The least constant has no counterpart, which shows beyond four bytes. -/
theorem constBits_neg {w : Nat} {k : Int32} (h : w ≤ 4 ∨ k ≠ Int32.minValue) :
    constBits w (-k) = -constBits w k := by
  rcases h with hw | hk
  · rw [constBits, Int32.toInt_neg, ofInt_bmod (by omega), BitVec.ofInt_neg]
    rfl
  · have hmin : k.toBitVec ≠ BitVec.intMin 32 := fun he => hk (Int32.toBitVec_inj.mp he)
    have hneg : (-k).toInt = -k.toInt := BitVec.toInt_neg_of_ne_intMin hmin
    rw [constBits, hneg, BitVec.ofInt_neg]
    rfl

theorem accumulate_offset {w : Nat} {k : Int32} (h : w ≤ 4 ∨ k ≠ Int32.minValue) (m : Bool)
    (a : BitVec (8 * w)) :
    a + constBits w (Value.offset m k) = accumulate m a (constBits w k) := by
  cases m with
  | false => rfl
  | true =>
    simp only [Value.offset, if_true, constBits_neg h, accumulate]
    rw [BitVec.sub_eq_add_neg]

theorem offset_ne_minValue {k : Int32} (h : k ≠ Int32.minValue) (m : Bool) :
    Value.offset m k ≠ Int32.minValue := by
  cases m with
  | false => exact h
  | true => exact fun he => h (Int32.neg_inj.mp (he.trans (by decide)))

@[simp] theorem constBits_zero (w : Nat) : constBits w 0 = 0 := by simp [constBits]

/-- A small constant that is not negative is a number as it stands. -/
theorem toNat_constBits {w : Nat} {k : Int32} (hk : 0 ≤ k) (hlt : k.toNatClampNeg < 2 ^ (8 * w)) :
    (constBits w k).toNat = k.toNatClampNeg := by
  have h0 : 0 ≤ k.toInt := by simpa [Int32.le_iff_toInt_le] using hk
  have hn : k.toInt = k.toNatClampNeg := (Int.toNat_of_nonneg h0).symm
  rw [constBits, hn, BitVec.ofInt_natCast, BitVec.toNat_ofNat, Nat.mod_eq_of_lt hlt]

theorem getLsbD_low {i : Nat} (hi : i < 8) (k : Int32) :
    (k &&& 0xff).toBitVec.getLsbD i = k.toBitVec.getLsbD i := by
  have hm : ∀ i < 8, (0xff : Int32).toBitVec.getLsbD i = true := by decide
  rw [Int32.toBitVec_and, BitVec.getLsbD_and, hm i hi, Bool.and_true]

/-- An instruction takes the low byte of its number. -/
theorem ofInt_low (k : Int32) : BitVec.ofInt 8 (k &&& 0xff).toInt = constBits 1 k := by
  apply BitVec.eq_of_getLsbD_eq
  intro i hi
  have h32 : i < 32 := by omega
  change ((k &&& 0xff).toBitVec.signExtend 8).getLsbD i = (k.toBitVec.signExtend 8).getLsbD i
  simp only [BitVec.getLsbD_signExtend, h32, if_true, getLsbD_low hi]

theorem toBitVec_shiftBytes {n : Nat} (hn : n < 4) (k : Int32) :
    (k >>> Int32.ofNat (8 * n)).toBitVec = k.toBitVec.sshiftRight (8 * n) := by
  rw [Int32.toBitVec_shiftRight]
  match n, hn with
  | 0, _ | 1, _ | 2, _ | 3, _ => rfl

/-- The bytes of a constant, and of its sign beyond the word. -/
theorem ofInt_constByte {w n : Nat} (hn : n < w) (k : Int32) :
    BitVec.ofInt 8 (constByte k n).toInt = (constBits w k).extractLsb' (8 * n) 8 := by
  apply BitVec.eq_of_getLsbD_eq
  intro i hi
  have hlt : 8 * n + i < 8 * w := by omega
  change ((constByte k n).toBitVec.signExtend 8).getLsbD i =
    ((k.toBitVec.signExtend (8 * w)).extractLsb' (8 * n) 8).getLsbD i
  simp only [BitVec.getLsbD_extractLsb', BitVec.getLsbD_signExtend, hi, hlt, decide_true,
    Bool.true_and, show i < 32 by omega, if_true]
  unfold constByte
  split
  · next h4 =>
    rw [getLsbD_low hi, toBitVec_shiftBytes h4, BitVec.getLsbD_sshiftRight]
    have : 8 * n + i < 32 := by omega
    simp [this]
    omega
  · next h4 =>
    have hs : ¬ 8 * n + i < 32 := by omega
    have hm : ∀ i < 8, (0xff : Int32).toBitVec.getLsbD i = true := by decide
    rw [if_neg hs]
    split
    · next hk =>
      rw [hm i hi, BitVec.msb_eq_toInt]
      simpa [Int32.lt_iff_toInt_lt] using hk
    · next hk =>
      rw [BitVec.msb_eq_toInt]
      simpa [Int32.lt_iff_toInt_lt] using hk

theorem little_bytes (w m : Nat) :
    little ((List.range w).map fun n => BitVec.ofNat 8 (m / 256 ^ n)) = m % 256 ^ w := by
  induction w generalizing m with
  | zero => simp [Nat.mod_one]
  | succ w ih =>
    have hnext : ((List.range w).map fun n => BitVec.ofNat 8 (m / 256 ^ (n + 1))) =
        (List.range w).map fun n => BitVec.ofNat 8 (m / 256 / 256 ^ n) := by
      simp only [Nat.pow_succ', Nat.div_div_eq_div_mul]
    rw [List.range_succ_eq_map, List.map_cons, List.map_map, little_cons]
    simp only [Function.comp_def, Nat.succ_eq_add_one, hnext, ih]
    rw [Nat.pow_succ', Nat.mod_mul]
    simp

theorem little_constBytes (w : Nat) (k : Int32) :
    little ((List.range w).map fun n => BitVec.ofInt 8 (constByte k n).toInt) =
      (constBits w k).toNat := by
  have hb : ∀ n ∈ List.range w, BitVec.ofInt 8 (constByte k n).toInt =
      BitVec.ofNat 8 ((constBits w k).toNat / 256 ^ n) := by
    intro n hn
    rw [ofInt_constByte (List.mem_range.mp hn), BitVec.extractLsb', Nat.shiftRight_eq_div_pow,
      Nat.pow_mul]
  rw [List.map_congr_left hb, little_bytes, ← Nat.pow_mul 2 8 w, Nat.mod_eq_of_lt (BitVec.isLt _)]

end Avr
