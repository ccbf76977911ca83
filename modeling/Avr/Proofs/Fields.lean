import Avr.Assembly.Listing

namespace Avr

namespace Positions

theorem getLsbD_deposit_of_not_mem {ps : Positions} {p : Nat} (h : p ∉ ps) (n : Nat) :
    (deposit ps n).getLsbD p = false := by
  induction ps generalizing n with
  | nil => simp [deposit]
  | cons q ps ih =>
    simp only [List.mem_cons, not_or] at h
    simp only [deposit, BitVec.getLsbD_or, ih h.2, Bool.or_false]
    split
    · simp [BitVec.getLsbD_twoPow, Ne.symm h.1]
    · simp

/-- Position `k` of the list holds bit `k` of the operand. -/
theorem getLsbD_deposit {ps : Positions} {k p : Nat} (hd : ps.Nodup) (hk : ps[k]? = some p)
    (hp : p < 16) (n : Nat) : (deposit ps n).getLsbD p = n.testBit k := by
  induction ps generalizing k n with
  | nil => simp at hk
  | cons q ps ih =>
    obtain ⟨hq, hd⟩ := List.nodup_cons.mp hd
    cases k with
    | zero =>
      have hqp : q = p := by simpa using hk
      subst q
      simp only [deposit, BitVec.getLsbD_or, getLsbD_deposit_of_not_mem hq, Bool.or_false,
        Nat.testBit_zero]
      split
      · next h => simp [h, hp]
      · next h => simp [h]
    | succ k =>
      have hk : ps[k]? = some p := by simpa using hk
      have hne : q ≠ p := by
        rintro rfl
        exact hq (List.mem_of_getElem? hk)
      simp only [deposit, BitVec.getLsbD_or, ih hd hk, Nat.testBit_add_one]
      split
      · simp [BitVec.getLsbD_twoPow, hne]
      · simp

/-- Neighbouring positions hold the low bits of the operand side by side. -/
theorem extract_deposit {ps : Positions} {start len : Nat} (h : ps = List.range' start len)
    (hs : start + len ≤ 16) (n : Nat) :
    (deposit ps n).extractLsb' start len = BitVec.ofNat len n := by
  apply BitVec.eq_of_getLsbD_eq
  intro i hi
  have hk : ps[i]? = some (start + i) := by simp [h, hi]
  have hd : ps.Nodup := h ▸ List.nodup_range'
  simp only [BitVec.getLsbD_extractLsb', BitVec.getLsbD_ofNat, hi, decide_true, Bool.true_and]
  exact getLsbD_deposit hd hk (by omega) n

theorem extract_field {ps : Positions} {start len : Nat} {code : Word}
    (h : ps = List.range' start len) (hs : start + len ≤ 16)
    (hfree : code.extractLsb' start len = 0) (n : Nat) :
    (code ||| deposit ps n).extractLsb' start len = BitVec.ofNat len n := by
  rw [BitVec.extractLsb'_or, hfree, extract_deposit h hs]
  exact BitVec.zero_or

theorem extract_deposit_of_disjoint {ps : Positions} {start len : Nat}
    (h : ∀ p ∈ ps, p < start ∨ start + len ≤ p) (n : Nat) :
    (deposit ps n).extractLsb' start len = 0 := by
  apply BitVec.eq_of_getLsbD_eq
  intro i hi
  have hm : start + i ∉ ps := by
    intro hm
    have := h _ hm
    omega
  simp [getLsbD_deposit_of_not_mem hm]

/-- The lowest of the six bits stands apart from the others. -/
theorem extract_deposit_far (n : Nat) :
    (deposit far6 n).extractLsb' 4 5 ++ (deposit far6 n).extractLsb' 0 1 = BitVec.ofNat 6 n := by
  apply BitVec.eq_of_getLsbD_eq
  intro i hi
  simp only [BitVec.getLsbD_append, BitVec.getLsbD_extractLsb', BitVec.getLsbD_ofNat, hi,
    decide_true, Bool.true_and]
  cases i with
  | zero =>
    have hlow : far6[0]? = some 0 := rfl
    simpa using getLsbD_deposit (show far6.Nodup by decide) hlow (by omega) n
  | succ i =>
    have hk : far6[i + 1]? = some (4 + i) := by
      match i, hi with
      | 0, _ | 1, _ | 2, _ | 3, _ | 4, _ => rfl
    have hi : i < 5 := by omega
    simpa [hi] using getLsbD_deposit (by decide) hk (by omega) n

end Positions

/-- Words as they lie in program memory, low byte first. -/
def Word.ofBytes : List UInt8 → List Word
  | low :: high :: rest => BitVec.ofNat 16 (low.toNat + 256 * high.toNat) :: ofBytes rest
  | _ => []

theorem Word.ofBytes_bytes (w : Word) (rest : List UInt8) :
    ofBytes (w.bytes ++ rest) = w :: ofBytes rest := by
  have hw := w.isLt
  have h : w.toNat % 256 + 256 * (w.toNat / 256 % 256) = w.toNat := by omega
  simp [bytes, ofBytes, h]

namespace Encoding

def words : Encoding → List Word
  | single w => [w]
  | double w v => [w, v]

theorem ofBytes_bytes (e : Encoding) : Word.ofBytes e.bytes = e.words := by
  cases e with
  | single w => simpa [bytes, words, Word.ofBytes] using w.ofBytes_bytes []
  | double w v =>
    have hv := v.ofBytes_bytes []
    simp only [List.append_nil, Word.ofBytes] at hv
    simp [bytes, words, Word.ofBytes_bytes, hv]

end Encoding

namespace Slot

/-- The address that the words of an instruction at `here` lead to: a displacement counts words
from the next instruction, a full target counts them from the start of memory. -/
def target? (here : Nat) : Slot → List Word → Option Int
  | rel7, [w] => some (here + 2 + 2 * (w.extractLsb' 3 7).toInt)
  | rel12, [w] => some (here + 2 + 2 * (w.extractLsb' 0 12).toInt)
  | abs22, [w, v] => some (2 * (w.extractLsb' 4 5 ++ w.extractLsb' 0 1 ++ v).toNat)
  | _, _ => none

end Slot

end Avr
