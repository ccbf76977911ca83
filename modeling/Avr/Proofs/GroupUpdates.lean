import Mathlib.Data.List.Nodup
import Avr.Proofs.Readings
import Avr.Proofs.Updates

namespace Avr

open Cpu

/-- An operation on numbers that treats each bit on its own, and bytes as it treats numbers. -/
structure Bitwise (F : Nat → Nat → Nat) (g : Byte → Byte → Byte) : Prop where
  bit : ∃ f : Bool → Bool → Bool, f false false = false ∧
    ∀ x y i, (F x y).testBit i = f (x.testBit i) (y.testBit i)
  byte : ∀ a b, (g a b).toNat = F a.toNat b.toNat

theorem bitwise_and : Bitwise (· &&& ·) (· &&& ·) := ⟨⟨and, rfl, Nat.testBit_and⟩, BitVec.toNat_and⟩

theorem bitwise_or : Bitwise (· ||| ·) (· ||| ·) := ⟨⟨or, rfl, Nat.testBit_or⟩, BitVec.toNat_or⟩

theorem bitwise_xor : Bitwise (· ^^^ ·) (· ^^^ ·) := ⟨⟨xor, rfl, Nat.testBit_xor⟩, BitVec.toNat_xor⟩

theorem Bitwise.little {F : Nat → Nat → Nat} {g : Byte → Byte → Byte} (h : Bitwise F g)
    (a b : α → Byte) (xs : List α) :
    little (xs.map fun x => g (a x) (b x)) = F (little (xs.map a)) (little (xs.map b)) := by
  obtain ⟨f, hf, hF⟩ := h.bit
  induction xs with
  | nil =>
    apply Nat.eq_of_testBit_eq
    simp [hF, hf]
  | cons x xs ih =>
    apply Nat.eq_of_testBit_eq
    intro i
    have hbit (b : Byte) (n : Nat) : (b.toNat + 256 * n).testBit i =
        if i < 8 then b.toNat.testBit i else n.testBit (i - 8) := by
      rw [Nat.add_comm]
      exact Nat.testBit_two_pow_mul_add n b.isLt i
    simp only [List.map_cons, little_cons, ih, hF, hbit]
    split
    · rw [h.byte, hF]
    · rfl

/-- What is carried out of the last byte is lost in a word of that width. -/
theorem bits_accumulate {w : Nat} {minus c : Bool} {x y z : Nat}
    (h : (x : Int) = y + (if minus then -1 else 1) * (z - 256 ^ w * c.toNat)) :
    BitVec.ofNat (8 * w) x =
      accumulate minus (BitVec.ofNat (8 * w) y) (BitVec.ofNat (8 * w) z) := by
  have hp : BitVec.ofInt (8 * w) (256 ^ w) = 0 := by
    have : (256 : Int) ^ w = ((2 ^ (8 * w) : Nat) : Int) := by
      rw [Nat.pow_mul]
      norm_cast
    rw [this, BitVec.ofInt_natCast]
    apply BitVec.eq_of_toNat_eq
    rw [BitVec.toNat_ofNat, Nat.mod_self]
    rfl
  simp only [← BitVec.ofInt_natCast, h]
  cases minus with
  | false =>
    simp only [Bool.false_eq_true, if_false, Int.sub_eq_add_neg, BitVec.ofInt_add,
      BitVec.ofInt_mul, BitVec.ofInt_neg, hp, accumulate]
    simp
  | true =>
    simp only [if_true, Int.sub_eq_add_neg, BitVec.ofInt_add, BitVec.ofInt_mul, BitVec.ofInt_neg,
      hp, accumulate]
    simp [BitVec.sub_eq_add_neg]

namespace Selection

section

variable {num : α → Nat} {xs : List α} (h : xs.map num = List.range xs.length)

include h

/-- Where steps are numbered from zero, only the first one has the number zero. -/
theorem num_ne_zero_of_mem_tail : ∀ x ∈ xs.tail, num x ≠ 0 := by
  intro x hx
  have hx : num x ∈ (xs.map num).tail := by
    rw [← List.map_tail]
    exact List.mem_map_of_mem hx
  rw [h, List.tail_range] at hx
  have := List.mem_range'_1.mp hx
  omega

theorem num_eq_zero_of_mem_head : ∀ x ∈ xs.head?, num x = 0 := by
  intro x hx
  have hx : num x ∈ (xs.map num).head? := by
    rw [List.head?_map]
    simpa using ⟨x, hx, rfl⟩
  rw [h] at hx
  cases hl : xs.length with
  | zero => simp [hl] at hx
  | succ n => simpa [hl, List.range_succ_eq_map] using hx.symm

end

/-- A chain of steps that are numbered from zero: only the first one has no carry to take. -/
theorem ends_counted (R : α → Bool → Byte → Bool → Prop) {F : α → Selection} (num : α → Nat)
    (reg : α → Reg) (D : List Reg) {s : Cpu} {xs : List α}
    (hnum : xs.map num = List.range xs.length)
    (hstep : ∀ x ∈ xs, ∀ is, (F x).Gives is → ∀ t, Keeps D [reg x] s t →
      Ends is t fun u => R x (num x ≠ 0 && t.status.carry) (u.regs (reg x)) u.status.carry ∧
        ∀ q, q ≠ reg x → u.regs q = t.regs q)
    (hd : (xs.map reg).Nodup) (hD : ∀ x ∈ xs, reg x ∈ D) {is : List Instruction}
    (h : (sequence (xs.map F)).Gives is) :
    Ends is s fun t => (∃ c', Ripple R (fun x => t.regs (reg x)) xs false c') ∧
      ∀ q, q ∉ xs.map reg → t.regs q = s.regs q := by
  refine ends_ripple R (fun x t => num x ≠ 0 && t.status.carry) hstep ?_ hd hD h (.refl D _ s) ?_
  · intro x hx t
    simp [num_ne_zero_of_mem_tail hnum x hx]
  · intro x hx
    simp [num_eq_zero_of_mem_head hnum x hx]

/-- A chain of additions or subtractions along a group. -/
theorem ends_addBytes {F : α → Selection} (minus : Bool) (num : α → Nat) (reg : α → Reg)
    (byte : α → Byte) {w : Nat} {rs : List Reg} {s : Cpu} {xs : List α} (hw : rs.length = w)
    (hd : rs.Nodup) (hnum : xs.map num = List.range xs.length) (hreg : xs.map reg = rs.reverse)
    (hstep : ∀ x ∈ xs, ∀ is, (F x).Gives is → ∀ t, Keeps rs [reg x] s t →
      Ends is t fun u => Adds (if minus then -1 else 1) (t.regs (reg x)) (byte x)
        (num x ≠ 0 && t.status.carry) (u.regs (reg x)) u.status.carry ∧
          ∀ q, q ≠ reg x → u.regs q = t.regs q)
    {is : List Instruction} (h : (sequence (xs.map F)).Gives is) :
    Ends is s fun t =>
      t.bits w rs = accumulate minus (s.bits w rs) (BitVec.ofNat (8 * w) (little (xs.map byte))) ∧
        ∀ q, q ∉ rs → t.regs q = s.regs q := by
  have hlen : xs.length = w := by
    rw [← hw, ← List.length_map (f := reg), hreg, List.length_reverse]
  have hmem : ∀ x ∈ xs, reg x ∈ rs := by
    intro x hx
    have := List.mem_map_of_mem (f := reg) hx
    rwa [hreg, List.mem_reverse] at this
  refine (ends_counted (fun x => Adds (if minus then -1 else 1) (s.regs (reg x)) (byte x)) num reg
    rs hnum ?_ (hreg ▸ List.nodup_reverse.mpr hd) hmem h).imp ?_
  · intro x hx is hi t ht
    rw [← ht (reg x) (by simp)]
    exact hstep x hx is hi t ht
  · rintro t ⟨⟨c', hr⟩, ho⟩
    refine ⟨bits_accumulate (c := c') ?_, fun q hq => ho q (by simpa [hreg] using hq)⟩
    rw [number_eq_little hreg, number_eq_little hreg, ← hlen]
    simpa using hr.adds

theorem map_fst_lowFirst (rs : List Reg) : (lowFirst rs).map Prod.fst = List.range rs.length := by
  simp [lowFirst, List.map_fst_zip]

theorem map_snd_lowFirst (rs : List Reg) : (lowFirst rs).map Prod.snd = rs.reverse := by
  simp [lowFirst, List.map_snd_zip]

theorem mem_iff_lowFirst {rs : List Reg} {r : Reg} : r ∈ rs ↔ ∃ x ∈ lowFirst rs, x.2 = r := by
  rw [← List.mem_reverse, ← map_snd_lowFirst, List.mem_map]

@[simp] theorem length_lowFirst (rs : List Reg) : (lowFirst rs).length = rs.length := by
  simp [lowFirst]

/-- Subtracting the bytes of a number, which stand in the instructions. -/
theorem computes_subtractBytes {w : Nat} {rs : List Reg} (hw : rs.length = w) (hd : rs.Nodup)
    {k : Nat → Int32} {is : List Instruction}
    (h : (subtractBytes rs fun n => .number (k n)).Gives is) :
    Computes is w rs fun s => s.bits w rs -
      BitVec.ofNat (8 * w) (little ((List.range w).map fun n => BitVec.ofInt 8 (k n).toInt)) := by
  intro s
  have hbytes : (lowFirst rs).map (fun x => BitVec.ofInt 8 (k x.1).toInt) =
      (List.range w).map fun n => BitVec.ofInt 8 (k n).toInt := by
    rw [← hw, ← map_fst_lowFirst, List.map_map]
    rfl
  rw [← hbytes]
  refine ends_addBytes true Prod.fst Prod.snd (fun x => BitVec.ofInt 8 (k x.1).toInt) hw hd
    (by simp [map_fst_lowFirst]) (map_snd_lowFirst rs) ?_ h
  rintro ⟨n, r⟩ hx is hi t ht
  rw [gives_emit hi]
  by_cases hn : n = 0
  · subst hn
    refine ends_one rfl ⟨?_, fun q hq => set_regs_of_ne _ _ hq⟩
    simpa using t.subByte_adds false r (BitVec.ofInt 8 (k 0).toInt) false
  · simp only [hn, if_false]
    refine ends_one rfl ⟨?_, fun q hq => set_regs_of_ne _ _ hq⟩
    simpa [hn] using t.subByte_adds true r (BitVec.ofInt 8 (k n).toInt) t.status.carry

/-- What adds one byte to another, or subtracts it. -/
def addMnemonic : Bool → Nat → Mnemonic
  | false, 0 => .add
  | false, _ => .adc
  | true, 0 => .sub
  | true, _ => .sbc

theorem forms_addMnemonic (minus : Bool) (n : Nat) :
    (addMnemonic minus n).forms = [[.reg, .reg]] := by
  cases minus <;> cases n <;> rfl

theorem ends_addRegs {minus : Bool} {n : Nat} {r q : Reg} {is : List Instruction}
    (h : (onRegs (addMnemonic minus n) r q).Gives is) (s : Cpu) :
    Ends is s fun t => Adds (if minus then -1 else 1) (s.regs r) (s.regs q)
      (n ≠ 0 && s.status.carry) (t.regs r) t.status.carry ∧ ∀ p, p ≠ r → t.regs p = s.regs p := by
  have hother {b : Byte} : ∀ p, p ≠ r → (s.set r b).regs p = s.regs p :=
    fun p hp => set_regs_of_ne _ _ hp
  rw [gives_emit h]
  cases minus with
  | false =>
    cases n with
    | zero => exact ends_one rfl ⟨by simpa using s.addByte_adds r (s.regs q) false, hother⟩
    | succ n =>
      exact ends_one rfl ⟨by simpa using s.addByte_adds r (s.regs q) s.status.carry, hother⟩
  | true =>
    cases n with
    | zero => exact ends_one rfl ⟨by simpa using s.subByte_adds false r (s.regs q) false, hother⟩
    | succ n =>
      exact ends_one rfl ⟨by simpa using s.subByte_adds true r (s.regs q) s.status.carry, hother⟩

/-- Two groups from the low byte up, with the number of each byte. -/
def lowPairs (rs ss : List Reg) : List ((Nat × Reg) × Reg) := (lowFirst rs).zip ss.reverse

section

variable {rs ss : List Reg} (hlen : ss.length = rs.length)

include hlen

theorem map_fst_lowPairs {β : Type} (f : Nat × Reg → β) :
    (lowPairs rs ss).map (fun x => f x.1) = (lowFirst rs).map f := by
  rw [lowPairs, ← Function.comp_def f, ← List.map_map, List.map_fst_zip (by simp [hlen])]

theorem map_snd_lowPairs {β : Type} (f : Reg → β) :
    (lowPairs rs ss).map (fun x => f x.2) = ss.reverse.map f := by
  rw [lowPairs, ← Function.comp_def f, ← List.map_map, List.map_snd_zip (by simp [hlen])]

theorem addGroups_eq (minus : Bool) :
    addGroups minus rs ss =
      sequence ((lowPairs rs ss).map fun x => onRegs (addMnemonic minus x.1.1) x.1.2 x.2) := by
  rw [addGroups, if_neg (by simp [hlen])]
  refine congrArg sequence (List.map_congr_left fun x _ => ?_)
  obtain ⟨⟨n, r⟩, q⟩ := x
  cases minus <;> cases n <;> rfl

end

theorem length_of_gives_addGroups {minus : Bool} {rs ss : List Reg} {is : List Instruction}
    (h : (addGroups minus rs ss).Gives is) : ss.length = rs.length := by
  unfold addGroups at h
  split at h
  · exact absurd h not_gives_fail
  · next hlen => simpa using hlen

/-- Adding to a group, or subtracting from it, another group. Each step reads a byte of that group
as it is by then. -/
theorem ends_addGroups {rs ss : List Reg} {minus : Bool} (hd : rs.Nodup) {is : List Instruction}
    (h : (addGroups minus rs ss).Gives is) (s : Cpu) :
    Ends is s fun t => (∃ c', Ripple
      (fun y => Adds (if minus then -1 else 1) (s.regs y.1.1.2) y.2) (fun y => t.regs y.1.1.2)
      (readings (fun x => x.1.2) Prod.snd s t [] (lowPairs rs ss)) false c') ∧
        ∀ q, q ∉ rs → t.regs q = s.regs q := by
  have hlen := length_of_gives_addGroups h
  rw [addGroups_eq hlen] at h
  have hnum : (lowPairs rs ss).map (fun x => x.1.1) = List.range (lowPairs rs ss).length := by
    rw [map_fst_lowPairs hlen Prod.fst, map_fst_lowFirst]
    simp [lowPairs, hlen]
  have hdest : (lowPairs rs ss).map (fun x => x.1.2) = rs.reverse := by
    rw [map_fst_lowPairs hlen Prod.snd, map_snd_lowFirst]
  have hcarry : ∀ x ∈ (lowPairs rs ss).tail, ∀ t : Cpu,
      (x.1.1 ≠ 0 && t.status.carry) = t.status.carry := by
    intro x hx t
    simp [num_ne_zero_of_mem_tail hnum x hx]
  have hfirst : ∀ x ∈ (lowPairs rs ss).head?, (x.1.1 ≠ 0 && s.status.carry) = false := by
    intro x hx
    simp [num_eq_zero_of_mem_head hnum x hx]
  have hfresh : ∀ x ∈ lowPairs rs ss, x.1.2 ∉ [] := by simp
  have hnodup : ((lowPairs rs ss).map fun x => x.1.2).Nodup := hdest ▸ List.nodup_reverse.mpr hd
  have hstep : ∀ x ∈ lowPairs rs ss, ∀ is, (onRegs (addMnemonic minus x.1.1) x.1.2 x.2).Gives is →
      ∀ s, Ends is s fun t => Adds (if minus then -1 else 1) (s.regs x.1.2) (s.regs x.2)
        (x.1.1 ≠ 0 && s.status.carry) (t.regs x.1.2) t.status.carry ∧
          ∀ q, q ≠ x.1.2 → t.regs q = s.regs q := by
    intro x _ is hi
    exact ends_addRegs hi
  refine (ends_readings (fun x => x.1.2) Prod.snd _ _ hstep hcarry hnodup hfresh h (fun _ _ => rfl)
    hfirst).imp fun t ht => ⟨ht.1, fun q hq => ht.2 q ?_⟩
  rwa [hdest, List.mem_reverse]

/-- What comes out is what the bytes that are read make. -/
theorem bits_of_readings {w : Nat} {rs ss : List Reg} {minus : Bool} (hw : rs.length = w)
    (hlen : ss.length = rs.length) {s t : Cpu} {c' : Bool}
    (h : Ripple (fun y => Adds (if minus then -1 else 1) (s.regs y.1.1.2) y.2)
      (fun y => t.regs y.1.1.2)
      (readings (fun x => x.1.2) Prod.snd s t [] (lowPairs rs ss)) false c') :
    t.bits w rs = accumulate minus (s.bits w rs) (BitVec.ofNat (8 * w)
      (little ((readings (fun x => x.1.2) Prod.snd s t [] (lowPairs rs ss)).map Prod.snd))) := by
  have hdest : (readings (fun x => x.1.2) Prod.snd s t [] (lowPairs rs ss)).map
      (fun y => y.1.1.2) = rs.reverse := by
    rw [map_readings fun x : (Nat × Reg) × Reg => x.1.2, map_fst_lowPairs hlen Prod.snd,
      map_snd_lowFirst]
  have hcount : (readings (fun x => x.1.2) Prod.snd s t [] (lowPairs rs ss)).length = w := by
    simpa [hw] using congrArg List.length hdest
  refine bits_accumulate (c := c') ?_
  rw [number_eq_little hdest, number_eq_little hdest, ← hcount]
  simpa using h.adds

/-- The same for a group that shares no register with the first. -/
theorem computes_addGroups {w : Nat} {rs ss : List Reg} {minus : Bool} (hw : rs.length = w)
    (hd : rs.Nodup) (hdis : ∀ r ∈ rs, r ∉ ss) {is : List Instruction}
    (h : (addGroups minus rs ss).Gives is) :
    Computes is w rs fun s => accumulate minus (s.bits w rs) (s.bits w ss) := by
  intro s
  have hlen := length_of_gives_addGroups h
  refine (ends_addGroups hd h s).imp ?_
  rintro t ⟨⟨c', hr⟩, ho⟩
  refine ⟨(bits_of_readings hw hlen hr).trans ?_, ho⟩
  have hapart : ∀ x ∈ lowPairs rs ss, ∀ y ∈ lowPairs rs ss, y.2 ≠ x.1.2 := by
    intro x hx y hy he
    have hr : x.1.2 ∈ (lowFirst rs).map Prod.snd := List.mem_map_of_mem (List.of_mem_zip hx).1
    rw [map_snd_lowFirst, List.mem_reverse] at hr
    have hs : y.2 ∈ ss := by simpa using (List.of_mem_zip hy).2
    exact hdis _ hr (he ▸ hs)
  have hp := List.pairwise_of_forall_mem_list hapart
  rw [readings_eq_map (by simp) hp, List.map_map, Function.comp_def, map_snd_lowPairs hlen s.regs]
  rfl

theorem computes_addGroupConst {w : Nat} {rs : List Reg} (hw : rs.length = w) (hd : rs.Nodup)
    {k : Int32} (hk : w ≤ 4 ∨ k ≠ Int32.minValue) {is : List Instruction}
    (h : (addGroupConst rs k).Gives is) :
    Computes is w rs fun s => s.bits w rs + constBits w k := by
  have hbytes {is : List Instruction}
      (h : (subtractBytes rs fun n => .number (constByte (-k) n)).Gives is) :
      Computes is w rs fun s => s.bits w rs + constBits w k := by
    refine (computes_subtractBytes hw hd h).congr fun s => ?_
    rw [little_constBytes, BitVec.ofNat_toNat, BitVec.setWidth_eq, constBits_neg hk,
      BitVec.sub_eq_add_neg, BitVec.neg_neg]
  unfold addGroupConst at h
  split at h
  · next hk =>
    rw [gives_warn h, hk]
    simpa using computes_nil w rs
  split at h
  · next p hp =>
    obtain ⟨hp, _⟩ := Option.filter_eq_some_iff.mp hp
    obtain rfl := Pair.ofList_some hp
    obtain rfl : w = 2 := hw.symm
    split at h
    · intro s
      rw [gives_emit h]
      refine ends_one rfl ⟨?_, setWord_other s p _⟩
      simp only [bits_pair]
      exact word_setWord s p _
    split at h
    · intro s
      rw [gives_emit h]
      refine ends_one rfl ⟨?_, setWord_other s p _⟩
      simp only [bits_pair]
      refine (word_setWord s p _).trans ?_
      change s.word p - constBits 2 (-k) = _
      rw [constBits_neg hk, BitVec.sub_eq_add_neg, BitVec.neg_neg]
    · exact hbytes h
  · exact hbytes h

theorem computes_addOffset {w : Nat} {rs : List Reg} (hw : rs.length = w) (hd : rs.Nodup)
    {k : Int32} (hk : w ≤ 4 ∨ k ≠ Int32.minValue) {minus : Bool} {is : List Instruction}
    (h : (addGroupConst rs (Value.offset minus k)).Gives is) :
    Computes is w rs fun s => accumulate minus (s.bits w rs) (constBits w k) := by
  have hoffset := hk.imp_right fun hk => offset_ne_minValue hk minus
  exact (computes_addGroupConst hw hd hoffset h).congr fun s => accumulate_offset hk minus _

/-- Adds one term that is no sum. -/
def addGroupLeaf (rs : List Reg) (subtract : Bool) : Value → Selection
  | .const k => addGroupConst rs (Value.offset subtract k)
  | .group ss => addGroups subtract rs ss
  | v => fail v.misuse

theorem computes_addGroupLeaf {w : Nat} (hw4 : w ≤ 4) {rs : List Reg} (hw : rs.length = w)
    (hd : rs.Nodup) {minus : Bool} {v : Value} (hm : ∀ r ∈ rs, ¬ v.mentions r)
    {is : List Instruction} (h : (addGroupLeaf rs minus v).Gives is) :
    Computes is w rs fun s => accumulate minus (s.bits w rs) (v.eval w s) := by
  cases v with
  | const k => exact computes_addOffset hw hd (.inl hw4) h
  | group ss =>
    refine computes_addGroups hw hd (fun r hr => ?_) h
    simpa using hm r hr
  | _ => exact absurd h not_gives_fail

end Selection

namespace Value

/-- An expression with a register in it is no address. -/
theorem address_eq_none {v : Value} (hv : v.isExpression) (hc : ¬ v.isConst) :
    v.address? = none := by
  induction v with
  | const k => exact absurd rfl hc
  | reg | group => rfl
  | binary op a b iha ihb =>
    cases op with
    | arith op =>
      obtain ⟨ha, hb, hab⟩ := isExpression_binary.mp hv
      by_cases h : a.isConst
      · simp [address?, ihb hb fun hb => hab ⟨h, hb⟩]
      · simp [address?, iha ha h]
    | _ => cases hv
  | _ => cases hv

theorem externalAddress_eq_none {v : Value} (hv : v.isExpression) : v.externalAddress? = none := by
  have hp {u : Value} (hu : u.isExpression) : u.externalPointer? = none := by
    cases u <;> first | rfl | cases hu
  unfold externalAddress?
  split
  · simp [hp (isExpression_binary.mp hv).2.1]
  · simp [hp (isExpression_binary.mp hv).1]
  · simp [hp (isExpression_binary.mp hv).1]
  · rfl
  · exact hp hv

end Value

namespace Selection

theorem gives_addGroup {rs : List Reg} {minus : Bool} {v : Value} (hv : v.isExpression)
    {is : List Instruction} (h : (addGroup rs minus v).Gives is) :
    (sequence (v.leaves.map fun l => addGroupLeaf rs (minus ^^ l.1) l.2)).Gives is := by
  refine gives_leaves (fun v ts hv hts t ht => (Value.parts_foldedTerms hv hts t ht).1)
    (addGroup rs) (addGroupLeaf rs) ?_ ?_ hv h
  · intro minus v is ts hv h hts
    obtain ⟨hb, _⟩ := Value.foldedTerms_some hts
    have hs := (Value.simplify_spec hv).1
    rw [addGroup] at h
    split at h
    · next hk => simp [hk, Value.isBinary] at hb
    · next hk => simp [hk, Value.isBinary] at hb
    · next hk => simp [hk, Value.isBinary] at hb
    · next hne _ _ =>
      simp only [Value.address_eq_none hs (Value.not_isConst hne),
        Value.externalAddress_eq_none hs, hb, if_true, hts] at h
      exact h
  · intro minus v is hv h hts
    have hs := (Value.simplify_spec hv).1
    rw [addGroup] at h
    split at h
    · next hk => rwa [hk]
    · next hk => rwa [hk]
    · exact absurd h not_gives_fail
    · next hne _ _ =>
      simp only [Value.address_eq_none hs (Value.not_isConst hne),
        Value.externalAddress_eq_none hs, hts] at h
      split at h
      · exact absurd h not_gives_fail
      · exact absurd h not_gives_fail

theorem computes_addGroup {w : Nat} (hw4 : w ≤ 4) {rs : List Reg} (hw : rs.length = w)
    (hd : rs.Nodup) {minus : Bool} {v : Value} (hv : v.isExpression)
    (hm : ∀ r ∈ rs, ¬ v.mentions r) {is : List Instruction} (h : (addGroup rs minus v).Gives is) :
    Computes is w rs fun s => accumulate minus (s.bits w rs) (v.eval w s) :=
  computes_leaves hw4 hv hm (fun _ _ _ _ hu hl => computes_addGroupLeaf hw4 hw hd hu hl)
    (gives_addGroup hv h)

theorem length_of_gives_pairwise {m : Mnemonic} {rs ss : List Reg} {is : List Instruction}
    (h : (pairwise m rs ss).Gives is) : ss.length = rs.length := by
  unfold pairwise at h
  split at h
  · exact absurd h not_gives_fail
  · next hlen => simpa using hlen

theorem pairwise_eq (m : Mnemonic) {rs ss : List Reg} (hlen : ss.length = rs.length) :
    pairwise m rs ss = sequence ((rs.zip ss).map fun x => onRegs m x.1 x.2) := by
  rw [pairwise, if_neg (by simp [hlen])]

/-- Groups are combined byte by byte, each with a byte of the other group as it is by then. -/
theorem ends_pairwise {m : Mnemonic} {g : Byte → Byte → Byte}
    (hexec : ∀ (s : Cpu) d r, s.execRegs d r m = some (s.setBits d (g (s.regs d) (s.regs r))))
    {rs ss : List Reg} (hd : rs.Nodup) {is : List Instruction} (h : (pairwise m rs ss).Gives is)
    (s : Cpu) :
    Ends is s fun t =>
      (∀ y ∈ readings Prod.fst Prod.snd s t [] (rs.zip ss), t.regs y.1.1 = g (s.regs y.1.1) y.2) ∧
        ∀ q, q ∉ rs → t.regs q = s.regs q := by
  have hlen := length_of_gives_pairwise h
  have hfst : (rs.zip ss).map Prod.fst = rs := List.map_fst_zip (by omega)
  rw [pairwise_eq m hlen] at h
  refine (ends_combine Prod.fst Prod.snd g ?_ (by rwa [hfst]) h s).imp fun t ht =>
    ⟨ht.1, fun q hq => ht.2 q (by rwa [hfst])⟩
  rintro ⟨r, q⟩ hx is hi t
  rw [gives_emit hi]
  exact ends_one (hexec t r q) ⟨by simp [setBits], fun p hp => set_regs_of_ne _ _ hp⟩

/-- A word that is made bit by bit is right exactly if each of its bytes is. -/
theorem bits_combined_iff {F : Nat → Nat → Nat} {g : Byte → Byte → Byte} (hb : Bitwise F g)
    {w : Nat} {rs ss : List Reg} (hw : rs.length = w) (hlen : ss.length = rs.length) {s t : Cpu} :
    t.bits w rs = BitVec.ofNat (8 * w) (F (s.number rs) (s.number ss)) ↔
      ∀ x ∈ rs.zip ss, t.regs x.1 = g (s.regs x.1) (s.regs x.2) := by
  have hcount : (rs.zip ss).reverse.length = w := by simp [hlen, hw]
  rw [bits, number_zip_left hlen, number_zip_left hlen, number_zip_right hlen, ← hb.little,
    ofNat_little_inj (by simpa using hcount) (by simpa using hcount), List.map_inj_left]
  simp

/-- Groups without a common register are combined byte by byte. -/
theorem computes_pairwise {m : Mnemonic} {F : Nat → Nat → Nat} {g : Byte → Byte → Byte}
    (hb : Bitwise F g)
    (hexec : ∀ (s : Cpu) d r, s.execRegs d r m = some (s.setBits d (g (s.regs d) (s.regs r))))
    {w : Nat} {rs ss : List Reg} (hw : rs.length = w) (hd : rs.Nodup) (hdis : ∀ r ∈ rs, r ∉ ss)
    {is : List Instruction} (h : (pairwise m rs ss).Gives is) :
    Computes is w rs fun s => BitVec.ofNat (8 * w) (F (s.number rs) (s.number ss)) := by
  intro s
  refine (ends_pairwise hexec hd h s).imp fun t ht => ⟨?_, ht.2⟩
  rw [bits_combined_iff hb hw (length_of_gives_pairwise h)]
  refine combined_of_follows ht.1 (by simp) (List.pairwise_of_forall_mem_list ?_)
  intro x hx y hy he
  exact absurd (he ▸ (List.of_mem_zip hy).2) (hdis _ (List.of_mem_zip hx).1)

/-- Leaving out a byte on which the mask has no effect changes nothing. -/
theorem computes_maskGroup {m : Mnemonic} {F : Nat → Nat → Nat} {g : Byte → Byte → Byte}
    (hb : Bitwise F g)
    (hexec : ∀ (s : Cpu) d k, s.execNumber d k m = some (s.setBits d (g (s.regs d) (.ofInt 8 k))))
    {neutral : Int32} (hn : ∀ a, g a (.ofInt 8 neutral.toInt) = a) {w : Nat} {rs : List Reg}
    (hw : rs.length = w) (hd : rs.Nodup) {k : Int32} {is : List Instruction}
    (h : (maskGroup m neutral rs k).Gives is) :
    Computes is w rs fun s => BitVec.ofNat (8 * w) (F (s.number rs) (constBits w k).toNat) := by
  intro s
  unfold maskGroup at h
  have hin {x : Nat × Reg} (hx : x ∈ lowFirst rs) : x.2 ∈ rs := mem_iff_lowFirst.mpr ⟨x, hx, rfl⟩
  have hdl : ((lowFirst rs).map Prod.snd).Nodup := by
    rw [map_snd_lowFirst]
    exact List.nodup_reverse.mpr hd
  refine (ends_writes Prod.snd (fun x => g (s.regs x.2) (.ofInt 8 (constByte k x.1).toInt)) rs ?_
    (hdl.sublist (List.filter_sublist.map _)) (fun x hx => hin (List.mem_filter.mp hx).1) h).imp ?_
  · rintro ⟨n, r⟩ hx is hi t ht
    have hr : t.regs r = s.regs r := ht r (by simp)
    rw [gives_emit hi]
    refine ends_one (hexec t r _) ⟨?_, fun p hp => set_regs_of_ne _ _ hp⟩
    simp [setBits, hr]
  · rintro t ⟨hv, ho⟩
    have hall : ∀ x ∈ lowFirst rs,
        t.regs x.2 = g (s.regs x.2) (.ofInt 8 (constByte k x.1).toInt) := by
      intro x hx
      by_cases hk : constByte k x.1 = neutral
      · rw [hk, hn]
        refine ho _ fun hm => ?_
        obtain ⟨y, hy, hyx⟩ := List.mem_map.mp hm
        obtain ⟨hy, hne⟩ := List.mem_filter.mp hy
        obtain rfl := List.inj_on_of_nodup_map hdl hy hx hyx
        simp [hk] at hne
      · exact hv x (List.mem_filter.mpr ⟨hx, by simpa using hk⟩)
    refine ⟨congrArg (BitVec.ofNat _) ?_, fun q hq => ho q fun hm => ?_⟩
    · have hsnd := map_snd_lowFirst rs
      rw [number_eq_little hsnd, number_eq_little hsnd, ← little_constBytes, ← hw,
        ← map_fst_lowFirst, List.map_map, Function.comp_def, ← hb.little]
      exact congrArg little (List.map_congr_left hall)
    · obtain ⟨x, hx, rfl⟩ := List.mem_map.mp hm
      exact hq (hin (List.mem_filter.mp hx).1)

theorem computes_andConst {w : Nat} {rs : List Reg} (hw : rs.length = w) (hd : rs.Nodup)
    {k : Int32} {is : List Instruction} (h : (maskGroup .andi 0xff rs k).Gives is) :
    Computes is w rs fun s => s.bits w rs &&& constBits w k := by
  refine (computes_maskGroup bitwise_and (fun _ _ _ => rfl) ?_ hw hd h).congr fun s => ?_
  · intro a
    exact BitVec.and_allOnes
  · rw [BitVec.ofNat_and, BitVec.ofNat_toNat, BitVec.setWidth_eq]
    rfl

theorem computes_orConst {w : Nat} {rs : List Reg} (hw : rs.length = w) (hd : rs.Nodup)
    {k : Int32} {is : List Instruction} (h : (maskGroup .ori 0 rs k).Gives is) :
    Computes is w rs fun s => s.bits w rs ||| constBits w k := by
  refine (computes_maskGroup bitwise_or (fun _ _ _ => rfl) ?_ hw hd h).congr fun s => ?_
  · intro a
    exact BitVec.or_zero
  · rw [BitVec.ofNat_or, BitVec.ofNat_toNat, BitVec.setWidth_eq]
    rfl

theorem shiftOnce_eq (first carry : Mnemonic) (rs : List Reg) :
    shiftOnce first carry rs = ((List.range rs.length).zip rs).map fun x =>
      onReg (if x.1 = 0 then first else carry) x.2 := by
  cases rs with
  | nil => rfl
  | cons r rs =>
    have hrest : rs.map (onReg carry) = ((List.range rs.length).zip rs).map fun x =>
        onReg carry x.2 := by
      rw [← Function.comp_def (onReg carry), ← List.map_map, List.map_snd_zip (by simp)]
    rw [shiftOnce, hrest, List.length_cons, List.range_succ_eq_map, List.zip_cons_cons,
      List.map_cons, List.zip_map_left, List.map_map]
    rfl

/-- One bit to the left is the number added to itself. -/
theorem computes_shiftLeft {w : Nat} {rs : List Reg} (hw : rs.length = w) (hd : rs.Nodup)
    {is : List Instruction} (h : (sequence (shiftOnce .lsl .rol rs.reverse)).Gives is) :
    Computes is w rs fun s => s.bits w rs <<< 1 := by
  intro s
  rw [shiftOnce_eq, List.length_reverse] at h
  change (sequence ((lowFirst rs).map _)).Gives is at h
  have hval : s.bits w rs <<< 1 = accumulate false (s.bits w rs)
      (BitVec.ofNat (8 * w) (little ((lowFirst rs).map fun x => s.regs x.2))) := by
    rw [← number_eq_little (map_snd_lowFirst rs)]
    apply BitVec.eq_of_toNat_eq
    simp only [BitVec.toNat_shiftLeft, Nat.shiftLeft_eq, Nat.pow_one, accumulate,
      Bool.false_eq_true, if_false, bits, BitVec.toNat_add, BitVec.toNat_ofNat, Nat.mul_two]
  refine (ends_addBytes false Prod.fst Prod.snd (fun x => s.regs x.2) hw hd
    (by simp [map_fst_lowFirst]) (map_snd_lowFirst rs) ?_ h).imp
    fun t ht => ⟨ht.1.trans hval.symm, ht.2⟩
  rintro ⟨n, r⟩ hx is hi t ht
  have hr : t.regs r = s.regs r := ht r (by simp)
  simp only [← hr]
  rw [gives_emit hi]
  by_cases hn : n = 0
  · subst hn
    refine ends_one rfl ⟨?_, fun q hq => set_regs_of_ne _ _ hq⟩
    simpa using t.addByte_adds r (t.regs r) false
  · simp only [hn, if_false]
    refine ends_one rfl ⟨?_, fun q hq => set_regs_of_ne _ _ hq⟩
    simpa [hn] using t.addByte_adds r (t.regs r) t.status.carry

/-- One bit to the right goes from the high byte down. -/
theorem computes_shiftRight {w : Nat} {rs : List Reg} (hw : rs.length = w) (hd : rs.Nodup)
    {is : List Instruction} (h : (sequence (shiftOnce .lsr .ror rs)).Gives is) :
    Computes is w rs fun s => s.bits w rs >>> 1 := by
  intro s
  rw [shiftOnce_eq] at h
  have hfst : ((List.range rs.length).zip rs).map Prod.fst = List.range rs.length :=
    List.map_fst_zip (by simp)
  have hsnd : ((List.range rs.length).zip rs).map Prod.snd = rs := List.map_snd_zip (by simp)
  refine (ends_counted (fun x => Shifts (s.regs x.2)) Prod.fst Prod.snd rs (by simp [hfst]) ?_
    (by rwa [hsnd]) (fun x hx => (List.of_mem_zip hx).2) h).imp ?_
  · rintro ⟨n, r⟩ hx is hi t ht
    have hr : t.regs r = s.regs r := ht r (by simp)
    simp only [← hr]
    rw [gives_emit hi]
    by_cases hn : n = 0
    · subst hn
      refine ends_one rfl ⟨?_, fun q hq => set_regs_of_ne _ _ hq⟩
      simpa using t.shiftByte_shifts r false
    · simp only [hn, if_false]
      refine ends_one rfl ⟨?_, fun q hq => set_regs_of_ne _ _ hq⟩
      simpa [hn] using t.shiftByte_shifts r t.status.carry
  · rintro t ⟨⟨c', hr⟩, ho⟩
    refine ⟨?_, fun q hq => ho q (by rwa [hsnd])⟩
    have hn (u : Cpu) : little (((List.range rs.length).zip rs).map fun x => u.regs x.2).reverse =
        u.number rs := by
      rw [← List.map_reverse, number_eq_little]
      rw [List.map_reverse, hsnd]
    have hs := hr.shifts
    rw [hn t, hn s] at hs
    have hc := c'.toNat_le
    have hhalf : t.number rs = s.number rs / 2 := by
      simp only [Bool.toNat_false, Nat.mul_zero, Nat.zero_add] at hs
      omega
    apply BitVec.eq_of_toNat_eq
    rw [BitVec.toNat_ushiftRight, toNat_bits hw, toNat_bits hw, hhalf]
    rfl

theorem computes_shiftGroup {left : Bool} {w : Nat} {rs : List Reg} (hw : rs.length = w)
    (hd : rs.Nodup) {v : Value} {is : List Instruction} (h : (shiftGroup left rs v).Gives is) :
    Computes is w rs fun s =>
      (if left then ArithOp.shl else .shr).onWords (s.bits w rs) (v.eval w s) := by
  unfold shiftGroup at h
  split at h
  · next k =>
    split at h
    · next hk =>
      rw [gives_warn h, hk]
      refine (computes_nil w rs).congr fun s => ?_
      cases left <;> simp [Value.eval, ArithOp.onWords]
    split at h
    · exact absurd h not_gives_fail
    · next hk =>
      obtain ⟨h0, hlt⟩ := not_or.mp hk
      have hamount : (constBits w k).toNat = k.toNatClampNeg := by
        refine toNat_constBits (Int32.not_lt.mp h0) ?_
        have hle : k.toNatClampNeg < 8 * w := by omega
        exact hle.trans Nat.lt_two_pow_self
      cases left with
      | true =>
        refine (computes_iterate _ (g := (· <<< 1)) (fun _ => computes_shiftLeft hw hd) h).congr
          fun s => ?_
        rw [iterate_shiftLeft, ← hamount]
        rfl
      | false =>
        refine (computes_iterate _ (g := (· >>> 1)) (fun _ => computes_shiftRight hw hd) h).congr
          fun s => ?_
        rw [iterate_shiftRight, ← hamount]
        rfl
  · exact absurd h not_gives_fail

/-- A group that is combined with an expression holds what the operator makes of the two. -/
theorem computes_updateGroup {w : Nat} (hw4 : w ≤ 4) {rs : List Reg} (hw : rs.length = w)
    (hd : rs.Nodup) {op : ArithOp} {v : Value} (hv : v.isExpression)
    (hm : ∀ r ∈ rs, ¬ v.mentions r) {is : List Instruction} (h : (updateGroup rs op v).Gives is) :
    Computes is w rs fun s => op.onWords (s.bits w rs) (v.eval w s) := by
  obtain ⟨_, _, he⟩ := Value.simplify_spec hv
  have he (s : Cpu) := he w hw4 s
  have hdis {ss : List Reg} (hs : v.simplify = .group ss) : ∀ r ∈ rs, r ∉ ss := by
    intro r hr hrs
    exact hm r hr (Value.mentions_simplify (by simpa [hs] using hrs))
  unfold updateGroup at h
  split at h
  · exact computes_addGroup hw4 hw hd hv hm h
  · exact computes_addGroup hw4 hw hd hv hm h
  · next k hs =>
    refine (computes_andConst hw hd h).congr fun s => ?_
    rw [← he, hs]
    rfl
  · next k hs =>
    refine (computes_orConst hw hd h).congr fun s => ?_
    rw [← he, hs]
    rfl
  · next ss hs =>
    refine (computes_pairwise bitwise_and (fun _ _ _ => rfl) hw hd (hdis hs) h).congr fun s => ?_
    rw [← he, hs, BitVec.ofNat_and]
    rfl
  · next ss hs =>
    refine (computes_pairwise bitwise_or (fun _ _ _ => rfl) hw hd (hdis hs) h).congr fun s => ?_
    rw [← he, hs, BitVec.ofNat_or]
    rfl
  · next ss hs =>
    refine (computes_pairwise bitwise_xor (fun _ _ _ => rfl) hw hd (hdis hs) h).congr fun s => ?_
    rw [← he, hs, BitVec.ofNat_xor]
    rfl
  · exact (computes_shiftGroup hw hd h).congr fun s => by rw [← he]; rfl
  · exact (computes_shiftGroup hw hd h).congr fun s => by rw [← he]; rfl
  · exact absurd h not_gives_fail

end Selection

end Avr
