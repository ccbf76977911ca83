import Mathlib.Data.Nat.Digits.Defs
import Mathlib.Tactic.Ring
import Avr.Proofs.Cpu

namespace Avr

/-- The number that the bytes make, from the low one up. -/
def little (bs : List Byte) : Nat := Nat.ofDigits 256 (bs.map BitVec.toNat)

@[simp] theorem little_nil : little [] = 0 := rfl

@[simp] theorem little_cons (b : Byte) (bs : List Byte) :
    little (b :: bs) = b.toNat + 256 * little bs := rfl

theorem digit_lt {bs : List Byte} : ∀ n ∈ bs.map BitVec.toNat, n < 256 := by
  intro n hn
  obtain ⟨b, _, rfl⟩ := List.mem_map.mp hn
  exact b.isLt

theorem little_lt (bs : List Byte) : little bs < 256 ^ bs.length := by
  simpa [little] using Nat.ofDigits_lt_base_pow_length (by omega) (@digit_lt bs)

/-- Bytes are known by their number, if it is known how many they are. -/
theorem ofNat_little_inj {w : Nat} {bs cs : List Byte} (hb : bs.length = w) (hc : cs.length = w) :
    BitVec.ofNat (8 * w) (little bs) = BitVec.ofNat (8 * w) (little cs) ↔ bs = cs := by
  have hmod {ds : List Byte} (hd : ds.length = w) : little ds % 2 ^ (8 * w) = little ds := by
    have hlt := little_lt ds
    rw [hd, show 256 = 2 ^ 8 from rfl, ← Nat.pow_mul] at hlt
    exact Nat.mod_eq_of_lt hlt
  constructor
  · intro h
    have h := congrArg BitVec.toNat h
    rw [BitVec.toNat_ofNat, BitVec.toNat_ofNat, hmod hb, hmod hc] at h
    have hnat := Nat.ofDigits_inj_of_len_eq (by omega) (by simp [hb, hc]) digit_lt digit_lt h
    exact List.map_injective_iff.mpr (fun _ _ => BitVec.eq_of_toNat_eq) hnat
  · rintro rfl
    rfl

namespace Pair

theorem high_ne_low (p : Pair) : p.high ≠ p.low := by
  simp [Pair.high, Pair.low]

/-- A pair is known by its low register. -/
theorem ofLow_some {r : Reg} {p : Pair} (h : ofLow? r = some p) : p.low = r := by
  obtain ⟨⟨n, hn⟩⟩ := r
  unfold ofLow? at h
  split at h
  · next he =>
    cases h
    simp only [Reg.number] at he
    simp only [Pair.low, Reg.mk.injEq, Fin.mk.injEq]
    omega
  · cases h

theorem ofList_some {rs : List Reg} {p : Pair} (h : ofList? rs = some p) :
    rs = [p.high, p.low] := by
  unfold ofList? at h
  split at h
  · next high low =>
    split at h
    · next hn =>
      obtain rfl := ofLow_some h
      obtain rfl : high = p.high := by
        simp only [Reg.number, Pair.low] at hn
        obtain ⟨⟨m, hm⟩⟩ := high
        simpa [Pair.high] using hn
      rfl
    · cases h
  · cases h

end Pair

namespace Cpu

/-- The number in a group, which is written with its high byte first. -/
def number (s : Cpu) (rs : List Reg) : Nat := little (rs.reverse.map s.regs)

theorem number_congr {s t : Cpu} {rs : List Reg} (h : ∀ r ∈ rs, t.regs r = s.regs r) :
    t.number rs = s.number rs :=
  congrArg little (List.map_congr_left (by simpa using h))

/-- The number read off any list that runs through the registers from the low byte up. -/
theorem number_eq_little {rs : List Reg} {xs : List α} {reg : α → Reg}
    (h : xs.map reg = rs.reverse) (s : Cpu) :
    s.number rs = little (xs.map fun x => s.regs (reg x)) := by
  rw [number, ← h, List.map_map]
  rfl

section

variable {rs ss : List Reg} (h : ss.length = rs.length) (s : Cpu)

include h

/-- Two groups of one length, byte against byte. -/
theorem number_zip_left : s.number rs = little ((rs.zip ss).reverse.map fun x => s.regs x.1) := by
  refine number_eq_little ?_ s
  rw [List.map_reverse, List.map_fst_zip (by omega)]

theorem number_zip_right : s.number ss = little ((rs.zip ss).reverse.map fun x => s.regs x.2) := by
  refine number_eq_little ?_ s
  rw [List.map_reverse, List.map_snd_zip (by omega)]

end

theorem number_lt (s : Cpu) (rs : List Reg) : s.number rs < 256 ^ rs.length := by
  simpa [number] using little_lt (rs.reverse.map s.regs)

/-- The number as a word of `w` bytes. -/
def bits (w : Nat) (s : Cpu) (rs : List Reg) : BitVec (8 * w) := BitVec.ofNat (8 * w) (s.number rs)

/-- A group of `w` registers holds every bit of its word. -/
theorem toNat_bits {w : Nat} {rs : List Reg} (hw : rs.length = w) (s : Cpu) :
    (s.bits w rs).toNat = s.number rs := by
  have hlt := s.number_lt rs
  rw [hw, show 256 = 2 ^ 8 from rfl, ← Nat.pow_mul] at hlt
  rw [bits, BitVec.toNat_ofNat, Nat.mod_eq_of_lt hlt]

theorem bits_congr {s t : Cpu} {w : Nat} {rs : List Reg} (h : ∀ r ∈ rs, t.regs r = s.regs r) :
    t.bits w rs = s.bits w rs := by
  rw [bits, number_congr h, bits]

@[simp] theorem bits_single (s : Cpu) (r : Reg) : s.bits 1 [r] = s.regs r := by
  simp [bits, number]

/-- A pair holds its two bytes as one number. -/
theorem bits_pair (s : Cpu) (p : Pair) : s.bits 2 [p.high, p.low] = s.word p := by
  apply BitVec.eq_of_toNat_eq
  have hh := (s.regs p.high).isLt
  have hl := (s.regs p.low).isLt
  rw [word, BitVec.toNat_append, ← Nat.shiftLeft_add_eq_or_of_lt hl, Nat.shiftLeft_eq]
  simp only [bits, number, List.reverse_cons, List.reverse_nil, List.nil_append, List.cons_append,
    List.map_cons, List.map_nil, little_cons, little_nil, BitVec.toNat_ofNat]
  omega

theorem setWord_low (s : Cpu) (p : Pair) (x : BitVec 16) :
    (s.setWord p x).regs p.low = x.extractLsb' 0 8 := by
  simp [setWord]

theorem setWord_high (s : Cpu) (p : Pair) (x : BitVec 16) :
    (s.setWord p x).regs p.high = x.extractLsb' 8 8 := by
  simp [setWord, Pair.high_ne_low]

theorem word_setWord (s : Cpu) (p : Pair) (x : BitVec 16) : (s.setWord p x).word p = x := by
  rw [word, setWord_high, setWord_low]
  apply BitVec.eq_of_getLsbD_eq
  intro i hi
  rw [BitVec.getLsbD_append]
  split
  · next h => simp [h]
  · next h => simp [show i - 8 < 8 by omega, show 8 + (i - 8) = i by omega]

theorem extract_word (s : Cpu) (p : Pair) :
    (s.word p).extractLsb' 0 8 = s.regs p.low ∧ (s.word p).extractLsb' 8 8 = s.regs p.high := by
  constructor
  · apply BitVec.eq_of_getLsbD_eq
    intro i hi
    rw [BitVec.getLsbD_extractLsb', word, BitVec.getLsbD_append]
    simp [hi]
  · apply BitVec.eq_of_getLsbD_eq
    intro i hi
    rw [BitVec.getLsbD_extractLsb', word, BitVec.getLsbD_append]
    simp [hi]

theorem setWord_other (s : Cpu) (p : Pair) (x : BitVec 16) :
    ∀ q, q ∉ [p.high, p.low] → (s.setWord p x).regs q = s.regs q := by
  intro q hq
  simp only [List.mem_cons, List.not_mem_nil, or_false, not_or] at hq
  rw [setWord, set_regs_of_ne _ _ hq.2, set_regs_of_ne _ _ hq.1]

/-- The byte `b'` is the sum (`σ = 1`) or the difference (`σ = -1`) of the bytes and the carry, and
the new carry is what is left over. -/
def Adds (σ : Int) (a b : Byte) (c : Bool) (b' : Byte) (c' : Bool) : Prop :=
  (b'.toNat : Int) = a.toNat + σ * (b.toNat + c.toNat - 256 * c'.toNat)

theorem addByte_adds (s : Cpu) (d : Reg) (b : Byte) (c : Bool) :
    Adds 1 (s.regs d) b c ((s.addByte d b c).regs d) (s.addByte d b c).status.carry := by
  have ha := (s.regs d).isLt
  have hb := b.isLt
  have hn := c.toNat_le
  have hv : ((s.addByte d b c).regs d).toNat = ((s.regs d).toNat + b.toNat + c.toNat) % 256 := by
    simp [addByte]
  have hc : (s.addByte d b c).status.carry = decide (256 ≤ (s.regs d).toNat + b.toNat + c.toNat) :=
    rfl
  rw [Adds, hv, hc]
  by_cases h : 256 ≤ (s.regs d).toNat + b.toNat + c.toNat
  · simp only [h, decide_true, Bool.toNat_true]
    omega
  · simp only [h, decide_false, Bool.toNat_false]
    omega

theorem subByte_adds (s : Cpu) (chained : Bool) (d : Reg) (b : Byte) (c : Bool) :
    Adds (-1) (s.regs d) b c ((s.subByte chained d b c).regs d)
      (s.subByte chained d b c).status.carry := by
  have ha := (s.regs d).isLt
  have hb := b.isLt
  have hn := c.toNat_le
  have hv : ((s.subByte chained d b c).regs d).toNat =
      ((s.regs d).toNat + 512 - b.toNat - c.toNat) % 256 := by
    simp only [subByte, set_regs_self, BitVec.toNat_sub, BitVec.toNat_ofNat]
    omega
  have hc : (s.subByte chained d b c).status.carry =
      decide ((s.regs d).toNat < b.toNat + c.toNat) := rfl
  rw [Adds, hv, hc]
  by_cases h : (s.regs d).toNat < b.toNat + c.toNat
  · simp only [h, decide_true, Bool.toNat_true]
    omega
  · simp only [h, decide_false, Bool.toNat_false]
    omega

/-- The byte `b'` has the bit `c` at its top, and the lowest bit of `a` becomes the carry. -/
def Shifts (a : Byte) (c : Bool) (b' : Byte) (c' : Bool) : Prop :=
  2 * b'.toNat + c'.toNat = 256 * c.toNat + a.toNat

theorem shiftByte_shifts (s : Cpu) (d : Reg) (top : Bool) :
    Shifts (s.regs d) top ((s.shiftByte d top).regs d) (s.shiftByte d top).status.carry := by
  have hv : ((s.shiftByte d top).regs d).toNat = 128 * top.toNat + (s.regs d).toNat / 2 := by
    have ha := (s.regs d).isLt
    simp only [shiftByte, set_regs_self, BitVec.toNat_cons', BitVec.extractLsb'_toNat,
      Nat.shiftRight_eq_div_pow, Nat.shiftLeft_eq]
    omega
  have hc : (s.shiftByte d top).status.carry = (s.regs d).getLsbD 0 := rfl
  rw [Shifts, hv, hc]
  by_cases h : (s.regs d).toNat % 2 = 1
  · simp [BitVec.getLsbD, h]
    omega
  · simp [BitVec.getLsbD, h]
    omega

end Cpu

/-- Bytes that are made one after the other, each with what the one before it carries over. -/
inductive Ripple (R : α → Bool → Byte → Bool → Prop) (out : α → Byte) : List α → Bool → Bool → Prop
  | nil (c : Bool) : Ripple R out [] c c
  | cons {x : α} {xs : List α} {c c₁ c' : Bool} (step : R x c (out x) c₁)
      (rest : Ripple R out xs c₁ c') : Ripple R out (x :: xs) c c'

namespace Ripple

/-- From the low byte up, carries make up the sum or the difference of two numbers. -/
theorem adds {σ : Int} {a b out : α → Byte} {xs : List α} {c c' : Bool}
    (h : Ripple (fun x => Cpu.Adds σ (a x) (b x)) out xs c c') :
    (little (xs.map out) : Int) = little (xs.map a) +
      σ * (little (xs.map b) + c.toNat - 256 ^ xs.length * c'.toNat) := by
  induction h with
  | nil c => simp
  | cons step rest ih =>
    simp only [Cpu.Adds] at step
    simp only [List.map_cons, little_cons, List.length_cons]
    push_cast
    rw [ih, step]
    ring

theorem little_append (xs ys : List Byte) :
    little (xs ++ ys) = little xs + 256 ^ xs.length * little ys := by
  simp [little, Nat.ofDigits_append]

/-- From the high byte down, each bit goes on into the next byte. -/
theorem shifts {a out : α → Byte} {xs : List α} {c c' : Bool}
    (h : Ripple (fun x => Cpu.Shifts (a x)) out xs c c') :
    2 * little (xs.map out).reverse + c'.toNat =
      256 ^ xs.length * c.toNat + little (xs.map a).reverse := by
  induction h with
  | nil c => simp
  | @cons x xs c c₁ c' step rest ih =>
    simp only [Cpu.Shifts] at step
    simp only [List.map_cons, List.reverse_cons, little_append, List.length_reverse,
      List.length_map, little_cons, little_nil, List.length_cons]
    have hs : 256 ^ xs.length * (2 * (out x).toNat + c₁.toNat) =
        256 ^ xs.length * (256 * c.toNat + (a x).toNat) := by rw [step]
    rw [pow_succ]
    linarith

theorem writes {byte out : α → Byte} {xs : List α} {c c' : Bool}
    (h : Ripple (fun x _ b _ => b = byte x) out xs c c') : ∀ x ∈ xs, out x = byte x := by
  induction h with
  | nil c => simp
  | cons step rest ih => simpa [step] using ih

end Ripple

namespace Cpu

/-- The registers `rs` are still as at first, and so is everything outside of `D`. -/
def Keeps (D rs : List Reg) (s₀ s : Cpu) : Prop := ∀ q, q ∈ rs ∨ q ∉ D → s.regs q = s₀.regs q

theorem Keeps.refl (D rs : List Reg) (s : Cpu) : Keeps D rs s s := fun _ _ => rfl

theorem Keeps.mono {D rs qs : List Reg} {s₀ s : Cpu} (h : Keeps D rs s₀ s) (hq : qs ⊆ rs) :
    Keeps D qs s₀ s :=
  fun q hm => h q (hm.imp_left fun hm => hq hm)

/-- A step that writes `r` leaves what later steps read. -/
theorem Keeps.step {D rs : List Reg} {s₀ s t : Cpu} {r : Reg} (h : Keeps D (r :: rs) s₀ s)
    (hr : r ∉ rs) (hD : r ∈ D) (ht : ∀ q, q ≠ r → t.regs q = s.regs q) : Keeps D rs s₀ t := by
  intro q hq
  have hne : q ≠ r := by
    rintro rfl
    rcases hq with hq | hq
    · exact hr hq
    · exact hq hD
  rw [ht q hne]
  exact h q (hq.imp_left fun hm => by simp [hm])

/-- Steps along the registers of a group. The first one may start from another carry than the
flag, and all others take the flag. -/
theorem ends_ripple (R : α → Bool → Byte → Bool → Prop) (cin : α → Cpu → Bool)
    {F : α → Selection} {reg : α → Reg} {D : List Reg} {s₀ : Cpu} {xs : List α}
    (hstep : ∀ x ∈ xs, ∀ is, (F x).Gives is → ∀ s, Keeps D [reg x] s₀ s →
      Ends is s fun t =>
        R x (cin x s) (t.regs (reg x)) t.status.carry ∧ ∀ q, q ≠ reg x → t.regs q = s.regs q)
    (htail : ∀ x ∈ xs.tail, ∀ s, cin x s = s.status.carry) (hd : (xs.map reg).Nodup)
    (hD : ∀ x ∈ xs, reg x ∈ D) {is : List Instruction}
    (h : (Selection.sequence (xs.map F)).Gives is) {s : Cpu} (hs : Keeps D (xs.map reg) s₀ s)
    {c : Bool} (hhead : ∀ x ∈ xs.head?, cin x s = c) :
    Ends is s fun t =>
      (∃ c', Ripple R (fun x => t.regs (reg x)) xs c c') ∧
        ∀ q, q ∉ xs.map reg → t.regs q = s.regs q := by
  induction xs generalizing s c is with
  | nil =>
    rw [Selection.gives_sequence_nil.mp h]
    exact ends_nil ⟨⟨c, .nil c⟩, fun _ _ => rfl⟩
  | cons x xs ih =>
    obtain ⟨js, ks, hj, hk, rfl⟩ := Selection.gives_sequence_cons.mp h
    simp only [List.map_cons, List.nodup_cons] at hd
    refine (hstep x (by simp) js hj s (hs.mono (by simp))).append (fun u hu => ?_)
    obtain ⟨hr, hu⟩ := hu
    rw [hhead x (by simp)] at hr
    have hrest := ih (fun y hy => hstep y (by simp [hy]))
      (fun y hy => htail y (List.mem_of_mem_tail hy)) hd.2 (fun y hy => hD y (by simp [hy])) hk
      (hs.step hd.1 (hD x (by simp)) hu) (fun y hy => htail y (List.mem_of_mem_head? hy) u)
    refine hrest.imp (fun t ht => ?_)
    obtain ⟨⟨c', hv⟩, ho⟩ := ht
    refine ⟨⟨c', .cons (by simpa [ho _ hd.1] using hr) hv⟩, ?_⟩
    intro q hq
    simp only [List.map_cons, List.mem_cons, not_or] at hq
    rw [ho q hq.2, hu q hq.1]

/-- Steps that each write one register, no two of them the same one. -/
theorem ends_writes {F : α → Selection} (reg : α → Reg) (byte : α → Byte) (D : List Reg) {s : Cpu}
    {xs : List α}
    (hstep : ∀ x ∈ xs, ∀ is, (F x).Gives is → ∀ t, Keeps D [reg x] s t →
      Ends is t fun u => u.regs (reg x) = byte x ∧ ∀ q, q ≠ reg x → u.regs q = t.regs q)
    (hd : (xs.map reg).Nodup) (hD : ∀ x ∈ xs, reg x ∈ D) {is : List Instruction}
    (h : (Selection.sequence (xs.map F)).Gives is) :
    Ends is s fun t =>
      (∀ x ∈ xs, t.regs (reg x) = byte x) ∧ ∀ q, q ∉ xs.map reg → t.regs q = s.regs q := by
  refine (ends_ripple (fun x _ b _ => b = byte x) (fun _ t => t.status.carry)
    (c := s.status.carry) hstep (fun _ _ _ => rfl) hd hD h (.refl D _ s) (fun _ _ => rfl)).imp ?_
  rintro t ⟨⟨c', hr⟩, ho⟩
  exact ⟨hr.writes, ho⟩

end Cpu

end Avr
