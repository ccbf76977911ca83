import Avr.Proofs.ConstantUpdates
import Avr.Proofs.ControlMachine

namespace Avr

open Cpu Outcome

/-- A shift by whole bytes goes round after four of them. -/
theorem shiftRight_bytes (k : Int32) (n : Nat) :
    k >>> Int32.ofNat (8 * n) = k >>> Int32.ofNat (8 * (n % 4)) := by
  rw [← Int32.toBitVec_inj, Int32.toBitVec_shiftRight, Int32.toBitVec_shiftRight]
  congr 1
  apply BitVec.eq_of_toInt_eq
  -- 32 divides the number of words, so a count that goes round there is the same modulo 32.
  have hcount (m : Nat) : (Int32.ofNat (8 * m)).toBitVec.toInt % 32 = (8 * m : Int) % 32 := by
    change (BitVec.ofNat 32 (8 * m)).toInt % 32 = _
    rw [BitVec.toInt_eq_toNat_cond, BitVec.toNat_ofNat]
    omega
  have hmod (m : Nat) : ((Int32.ofNat (8 * m)).toBitVec.smod 32).toInt = (8 * m : Int) % 32 := by
    rw [BitVec.toInt_smod, ← hcount]
    exact Int.fmod_eq_emod_of_nonneg _ (by decide)
  rw [hmod, hmod]
  omega

/-- A byte of a constant is a number without a sign. -/
theorem constByte_bounds (k : Int32) (n : Nat) :
    0 ≤ (constByte k n).toInt ∧ (constByte k n).toInt ≤ 255 := by
  unfold constByte
  split
  · generalize k >>> Int32.ofNat (8 * n) = j
    have hlow : (j &&& 0xff).toBitVec.toNat = j.toBitVec.toNat % 256 := by
      rw [Int32.toBitVec_and, BitVec.toNat_and]
      exact Nat.and_two_pow_sub_one_eq_mod _ 8
    change 0 ≤ (j &&& 0xff).toBitVec.toInt ∧ (j &&& 0xff).toBitVec.toInt ≤ 255
    rw [BitVec.toInt_eq_toNat_cond, hlow]
    omega
  split <;> decide

theorem ofInt_constByte_inj {a b : Int32} {m n : Nat} :
    BitVec.ofInt 8 (constByte a m).toInt = BitVec.ofInt 8 (constByte b n).toInt ↔
      constByte a m = constByte b n := by
  constructor
  · intro h
    have ha := constByte_bounds a m
    have hb := constByte_bounds b n
    have h := congrArg BitVec.toNat h
    simp only [BitVec.toNat_ofInt] at h
    rw [← Int32.toInt_inj]
    omega
  · intro h
    rw [h]

namespace AddrExpr

variable {place : LabelRef → Option Nat} {e : AddrExpr} {k : Int32}

/-- Bytes beyond the word are those of the word once more. -/
theorem eval_byte (h : e.eval place = .ok k) (n : Nat) :
    (e.byte n).eval place = .ok (constByte k (n % 4)) := by
  have hbyte : constByte k (n % 4) = (k >>> Int32.ofNat (8 * n)) &&& 0xff := by
    rw [constByte, if_pos (Nat.mod_lt n (by omega)), ← shiftRight_bytes]
  rw [hbyte]
  unfold byte
  split
  · next hn =>
    subst hn
    have hshift : k >>> Int32.ofNat (8 * 0) = k := Int32.shiftRight_zero
    simp only [low, eval, h, hshift]
    rfl
  · simp only [low, eval, h]
    rfl

/-- What needs no label has its value wherever labels are placed. -/
theorem eval_of_unplaced (h : e.eval (fun _ => none) = .ok k) : e.eval place = .ok k := by
  induction e generalizing k with
  | const j => exact h
  | address l => cases h
  | negate e ih =>
    obtain ⟨j, hj, h⟩ := bind_ok.mp h
    exact bind_ok.mpr ⟨j, ih hj, h⟩
  | binary op left right ihl ihr =>
    obtain ⟨a, ha, h⟩ := bind_ok.mp h
    obtain ⟨b, hb, h⟩ := bind_ok.mp h
    exact bind_ok.mpr ⟨a, ihl ha, bind_ok.mpr ⟨b, ihr hb, h⟩⟩

theorem eval_of_constant (h : e.constant? = some k) : e.eval place = .ok k := by
  unfold constant? at h
  refine eval_of_unplaced ?_
  cases he : e.eval fun _ => none with
  | ok j =>
    rw [he] at h
    cases h
    rfl
  | error =>
    rw [he] at h
    cases h

end AddrExpr

namespace Layout

/-- Wherever the code is placed, the second pass makes these instructions of it. -/
def Settles (l : Layout) (is js : List Instruction) : Prop :=
  List.Forall₂ (fun i j => ∀ linker here, ∃ bytes,
    l.resolveInstruction linker here i = .ok (j, bytes)) is js

theorem resolveInstruction_of {l : Layout} {linker : Bool} {here : Nat} {i : Instruction}
    {slots : List Slot} {operands : List Operand} (hform : i.mnemonic.form i.operands = .ok slots)
    (hoperands : l.resolveOperands linker here slots i.operands = .ok operands)
    (hresolved : i.mnemonic.form operands = .ok slots)
    (hplain : ∀ o ∈ operands, o.isSymbolic = false) :
    ∃ bytes, l.resolveInstruction linker here i = .ok ({ i with operands }, bytes) := by
  have hnone : operands.find? Operand.isSymbolic = none := by simpa using hplain
  have hencode : Instruction.encode { i with operands } =
      .ok (i.mnemonic.layout.assemble slots operands) := by
    simp only [Instruction.encode, hresolved, hnone]
    rfl
  refine ⟨(i.mnemonic.layout.assemble slots operands).bytes, ?_⟩
  simp only [resolveInstruction, bind_ok, pure_ok, mapError_ok]
  exact ⟨slots, hform, operands, hoperands, _, hencode, rfl⟩

/-- Code without symbols is settled from the start. -/
theorem settles_emit (l : Layout) {m : Mnemonic} {operands : List Operand} {is : List Instruction}
    (h : (Selection.emit m operands).Gives is) (hplain : ∀ o ∈ operands, o.isSymbolic = false) :
    l.Settles is is := by
  obtain ⟨⟨slots, hform⟩, rfl⟩ := Selection.gives_emit_iff.mp h
  refine .cons (fun linker here => ?_) .nil
  have hlen := (Mnemonic.formOfLength_some (Mnemonic.form_ok hform).1).2
  exact resolveInstruction_of hform (resolveOperands_plain hlen hplain) hform hplain

end Layout

namespace Selection

/-- Only the low byte starts without a borrow. -/
def subtractMnemonic (n : Nat) : Mnemonic := if n = 0 then .subi else .sbci

theorem forms_subtractMnemonic (n : Nat) : (subtractMnemonic n).forms = [[.highReg, .imm8]] := by
  unfold subtractMnemonic
  split <;> rfl

/-- The bytes of a number that fits can be subtracted from high registers. -/
theorem gives_subtractBytes_iff {rs : List Reg} {byte : Nat → Operand}
    (hbyte : ∀ m n, Slot.imm8.check m (byte n) = .ok ()) {is : List Instruction} :
    (subtractBytes rs byte).Gives is ↔ (∀ r ∈ rs, r.isHigh) ∧ is = (lowFirst rs).map fun x =>
      { mnemonic := subtractMnemonic x.1, operands := [.reg x.2, byte x.1] } := by
  have hregs : (∀ x ∈ lowFirst rs, x.2.isHigh) ↔ ∀ r ∈ rs, r.isHigh := by
    simp only [mem_iff_lowFirst, forall_exists_index, and_imp, forall_apply_eq_imp_iff₂]
  rw [← hregs]
  refine gives_sequence_map_iff fun x is => ?_
  obtain ⟨n, r⟩ := x
  refine (gives_immediate_iff (forms_subtractMnemonic n)).trans ?_
  simp [hbyte]

theorem check_constByte (m : Mnemonic) (k : Int32) (n : Nat) :
    Slot.imm8.check m (.number (constByte k n)) = .ok () := by
  obtain ⟨hlow, hhigh⟩ := constByte_bounds k n
  refine if_pos ⟨Int32.le_iff_toInt_le.mpr ?_, Int32.le_iff_toInt_le.mpr hhigh⟩
  exact Int.le_trans (by decide) hlow

/-- Subtracting the bytes of a number settles to subtracting what they are resolved to. -/
theorem settles_subtractBytes {l : Layout} {rs : List Reg} {byte : Nat → Operand} {k : Nat → Int32}
    (hbyte : ∀ m n, Slot.imm8.check m (byte n) = .ok ())
    (hnumber : ∀ m n, Slot.imm8.check m (.number (k n)) = .ok ())
    (hresolve : ∀ linker here n,
      l.resolveOperand linker here .imm8 (byte n) = .ok (.number (k n)))
    {is : List Instruction} (h : (subtractBytes rs byte).Gives is) :
    ∃ js, (subtractBytes rs fun n => .number (k n)).Gives js ∧ l.Settles is js := by
  obtain ⟨hhigh, rfl⟩ := (gives_subtractBytes_iff hbyte).mp h
  refine ⟨_, (gives_subtractBytes_iff hnumber).mpr ⟨hhigh, rfl⟩, ?_⟩
  rw [Layout.Settles, List.forall₂_map_left_iff, List.forall₂_map_right_iff, List.forall₂_same]
  intro x hx linker here
  have hr : x.2.isHigh := hhigh _ (mem_iff_lowFirst.mpr ⟨x, hx, rfl⟩)
  have hform {o : Operand} (ho : ∀ m, Slot.imm8.check m o = .ok ()) :
      (subtractMnemonic x.1).form [.reg x.2, o] = .ok [.highReg, .imm8] :=
    (form_immediate_iff (forms_subtractMnemonic x.1)).mpr ⟨⟨hr, ho _⟩, rfl⟩
  refine Layout.resolveInstruction_of (hform fun m => hbyte m x.1) ?_ (hform fun m => hnumber m x.1)
    (by simp [Operand.isSymbolic])
  simp only [Layout.resolveOperands, hresolve]
  rfl

theorem settles_constBytes (l : Layout) {rs : List Reg} {k : Int32} {is : List Instruction}
    (h : (subtractBytes rs fun n => .number (constByte k n)).Gives is) : l.Settles is is := by
  obtain ⟨js, hjs, hsettles⟩ := settles_subtractBytes (l := l) (fun m n => check_constByte m k n)
    (fun m n => check_constByte m k n) (fun _ _ _ => rfl) h
  rwa [← h.unique hjs] at hsettles

theorem settles_addGroupConst (l : Layout) {rs : List Reg} {k : Int32} {is : List Instruction}
    (h : (addGroupConst rs k).Gives is) : l.Settles is is := by
  unfold addGroupConst at h
  split at h
  · rw [gives_warn h]
    exact .nil
  split at h
  · split at h
    · exact l.settles_emit h (by simp [Operand.isSymbolic])
    split at h
    · exact l.settles_emit h (by simp [Operand.isSymbolic])
    · exact settles_constBytes l h
  · exact settles_constBytes l h

theorem exists_gives_word {m : Mnemonic} (hm : m.forms = [[.wordPair, .imm6]]) {p : Pair}
    (hp : p.isWord) {k : Int32} (hk : 0 ≤ k ∧ k ≤ 63) :
    ∃ is, (emit m [.pair p, .number k]).Gives is := by
  have hform : m.formOfLength? 2 = some [.wordPair, .imm6] := by simp [Mnemonic.formOfLength?, hm]
  refine ⟨_, gives_emit_iff.mpr ⟨⟨[.wordPair, .imm6], ?_⟩, rfl⟩⟩
  simp only [Mnemonic.form, List.length_cons, List.length_nil, hform]
  simp only [Slot.checkAll, Slot.check, hp, Slot.range?, Slot.checkNumber, hk, Option.getD_some,
    and_self, if_true]
  rfl

theorem neg_bounds {k : Int32} (h : -63 ≤ k ∧ k ≤ -1) : 0 ≤ -k ∧ -k ≤ 63 := by
  have hlow : -63 ≤ k.toInt := Int32.le_iff_toInt_le.mp h.1
  have hhigh : k.toInt ≤ -1 := Int32.le_iff_toInt_le.mp h.2
  have hneg : (-k).toInt = -k.toInt := by
    rw [Int32.toInt_neg]
    exact Int.bmod_eq_of_le (by omega) (by omega)
  rw [Int32.le_iff_toInt_le, Int32.le_iff_toInt_le, hneg]
  exact ⟨(by omega : 0 ≤ -k.toInt), (by omega : -k.toInt ≤ 63)⟩

theorem exists_gives_addGroupConst {rs : List Reg} (hhigh : ∀ r ∈ rs, r.isHigh) (k : Int32) :
    ∃ is, (addGroupConst rs k).Gives is := by
  have hbytes : ∃ is, (subtractBytes rs fun n => .number (constByte (-k) n)).Gives is :=
    ⟨_, (gives_subtractBytes_iff fun m n => check_constByte m (-k) n).mpr ⟨hhigh, rfl⟩⟩
  unfold addGroupConst
  split
  · exact ⟨[], _, rfl, rfl⟩
  split
  · next p hp =>
    obtain ⟨-, hword⟩ := Option.filter_eq_some_iff.mp hp
    split
    · next hk => exact exists_gives_word rfl hword ⟨Int32.le_trans (by decide) hk.1, hk.2⟩
    split
    · next hk => exact exists_gives_word rfl hword (neg_bounds hk)
    · exact hbytes
  · exact hbytes

/-- The bytes of a number, taken modulo four, are subtracted right exactly if those beyond the word
are what its sign makes them. -/
theorem subtractBytes_right_iff {w : Nat} {rs : List Reg} (hw : rs.length = w) (hd : rs.Nodup)
    {k : Int32} {is : List Instruction}
    (h : (subtractBytes rs fun n => .number (constByte k (n % 4))).Gives is) :
    (∀ s t, run is s = some t → t.bits w rs = s.bits w rs - constBits w k) ↔
      ∀ n < w, constByte k (n % 4) = constByte k n := by
  have hcomputes := computes_subtractBytes hw hd h
  have hconst : constBits w k = BitVec.ofNat (8 * w)
      (little ((List.range w).map fun n => BitVec.ofInt 8 (constByte k n).toInt)) := by
    rw [little_constBytes, BitVec.ofNat_toNat, BitVec.setWidth_eq]
  have hright : BitVec.ofNat (8 * w) (little ((List.range w).map fun n =>
        BitVec.ofInt 8 (constByte k (n % 4)).toInt)) = constBits w k ↔
      ∀ n < w, constByte k (n % 4) = constByte k n := by
    rw [hconst, ofNat_little_inj (by simp) (by simp), List.map_inj_left]
    simp only [List.mem_range, ofInt_constByte_inj]
  rw [← hright]
  constructor
  · intro hall
    -- What is subtracted does not depend on the state, so that any one will do.
    obtain ⟨t, hrun, hbits, -⟩ := hcomputes ⟨fun _ => 0, {}⟩
    have heq : accumulate true _ _ = accumulate true _ _ := hbits.symm.trans (hall _ t hrun)
    exact accumulate_inj.mp heq
  · intro heq s t hrun
    rw [hcomputes.bits_of_run hrun, heq]

/-- The bytes of an address that is added or subtracted, as the second pass finds them. -/
theorem resolveOperand_byte {l : Layout} {subtract : Bool} {e : AddrExpr} {v : Int32}
    (hv : e.eval l.find? = .ok v) (linker : Bool) (here n : Nat) :
    l.resolveOperand linker here .imm8
        (.address ((if subtract then e else .negate e).byte n)) =
      .ok (.number (constByte (Value.offset (!subtract) v) (n % 4))) := by
  have hamount : (if subtract then e else .negate e).eval l.find? =
      .ok (Value.offset (!subtract) v) := by
    cases subtract with
    | true => exact hv
    | false => exact bind_ok.mpr ⟨v, hv, rfl⟩
  rw [Layout.resolveOperand, AddrExpr.eval_byte hamount]

/-- Subtracting the counterpart is adding. -/
theorem accumulate_eq_sub {w : Nat} {v : Int32} (hv : v ≠ Int32.minValue) (minus : Bool)
    (a : BitVec (8 * w)) :
    accumulate minus a (constBits w v) = a - constBits w (Value.offset (!minus) v) := by
  cases minus with
  | true => rfl
  | false =>
    change a + constBits w v = a - constBits w (-v)
    rw [constBits_neg (.inr hv), BitVec.sub_eq_add_neg, BitVec.neg_neg]

/-- Code that adds an address to a group of distinct registers, or subtracts it, becomes code that
changes that group alone once labels are placed. What is left in the group is the same as if the
number had been added, whatever the registers held, exactly if no label is needed or every byte of
the group gets the byte of the number that it should. Bytes are counted modulo four, so this is
always so for up to four registers, and for more if the bytes of the word that are taken once more
are what the sign of the number makes them. -/
theorem addGroupAddress_iff (rs : List Reg) (subtract : Bool) (e : AddrExpr) (l : Layout)
    (v : Int32) (c : Code) (hd : rs.Nodup) (hv : e.eval l.find? = .ok v)
    (hmin : v ≠ Int32.minValue) (hc : addGroupAddress rs subtract e = .ok c) :
    (∀ n, (e.byte n).eval l.find? = .ok (constByte v (n % 4))) ∧
    (∃ d, addGroupConst rs (Value.offset subtract v) = .ok d ∧ ∀ s, ∃ t,
      run d.instructions s = some t ∧ t.bits rs.length rs =
        accumulate subtract (s.bits rs.length rs) (constBits rs.length v)) ∧
    ∃ is, l.Settles c.instructions is ∧
      (∀ s, ∃ t, run is s = some t ∧ ∀ r, r ∉ rs → t.regs r = s.regs r) ∧
      ((∀ s t, run is s = some t → t.bits rs.length rs =
          accumulate subtract (s.bits rs.length rs) (constBits rs.length v)) ↔
        e.constant?.isSome ∨ ∀ n < rs.length, constByte (Value.offset (!subtract) v) (n % 4) =
          constByte (Value.offset (!subtract) v) n) := by
  refine ⟨AddrExpr.eval_byte hv, ?_⟩
  unfold addGroupAddress at hc
  cases hconst : e.constant? with
  | some k =>
    obtain rfl : v = k := Except.ok.inj (hv.symm.trans (AddrExpr.eval_of_constant hconst))
    rw [hconst] at hc
    have hcomputes := computes_addOffset rfl hd (.inr hmin) ⟨c, hc, rfl⟩
    refine ⟨⟨c, hc, fun s => ?_⟩, c.instructions, settles_addGroupConst l ⟨c, hc, rfl⟩,
      fun s => ?_, iff_of_true (fun s t hrun => hcomputes.bits_of_run hrun) (.inl rfl)⟩
    · obtain ⟨t, hrun, hbits, -⟩ := hcomputes s
      exact ⟨t, hrun, hbits⟩
    · obtain ⟨t, hrun, -, hothers⟩ := hcomputes s
      exact ⟨t, hrun, hothers⟩
  | none =>
    rw [hconst] at hc
    have hbytes : (subtractBytes rs fun n =>
        .address ((if subtract then e else .negate e).byte n)).Gives c.instructions :=
      ⟨c, hc, rfl⟩
    -- Registers that take the bytes of an address take those of a number.
    obtain ⟨hhigh, -⟩ := (gives_subtractBytes_iff fun _ _ => rfl).mp hbytes
    obtain ⟨_, d, hd', rfl⟩ := exists_gives_addGroupConst hhigh (Value.offset subtract v)
    obtain ⟨is, his, hsettles⟩ := settles_subtractBytes (fun _ _ => rfl)
      (fun m n => check_constByte m _ _) (resolveOperand_byte hv) hbytes
    refine ⟨⟨d, hd', fun s => ?_⟩, is, hsettles, fun s => ?_, ?_⟩
    · obtain ⟨t, hrun, hbits, -⟩ := computes_addOffset rfl hd (.inr hmin) ⟨d, hd', rfl⟩ s
      exact ⟨t, hrun, hbits⟩
    · obtain ⟨t, hrun, -, hothers⟩ := computes_subtractBytes rfl hd his s
      exact ⟨t, hrun, hothers⟩
    · simp only [accumulate_eq_sub hmin, subtractBytes_right_iff rfl hd his]
      simp

namespace AddressSample

/-- `r17.r16` -/
def two : List Reg := [⟨17⟩, ⟨16⟩]

def spot : AddrExpr := .address (.plain "spot")

/-- The label lies after one instruction. -/
def placed : Layout := { labels := [("spot", 2)] }

end AddressSample

open AddressSample ConstantSample in
theorem addGroupAddress_iff_five :
    (∃ c is, addGroupAddress two false spot = .ok c ∧ placed.Settles c.instructions is ∧
      ∀ s t, run is s = some t → t.bits 2 two = s.bits 2 two + constBits 2 2) ∧
    ∃ c is, addGroupAddress five false spot = .ok c ∧ placed.Settles c.instructions is ∧
      ¬ ∀ s t, run is s = some t → t.bits 5 five = s.bits 5 five + constBits 5 2 := by
  constructor
  · obtain ⟨-, -, is, hsettles, -, hiff⟩ := addGroupAddress_iff two false spot placed 2 _
      (by decide) rfl (by decide) rfl
    exact ⟨_, is, rfl, hsettles, hiff.mpr (by decide)⟩
  · obtain ⟨-, -, is, hsettles, -, hiff⟩ := addGroupAddress_iff five false spot placed 2 _
      (by decide) rfl (by decide) rfl
    exact ⟨_, is, rfl, hsettles, fun h => absurd (hiff.mp h) (by decide)⟩

end Selection

end Avr
