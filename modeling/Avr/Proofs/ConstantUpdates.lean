import Avr.Lowering.Assign
import Avr.Proofs.GroupUpdates

namespace Avr

open Cpu

/-- The registers that an assignment to the value changes, from the high byte down. -/
def Value.assigned : Value → List Reg
  | reg r => [r]
  | group rs => rs
  | _ => []

namespace Selection

theorem addGroup_const (rs : List Reg) (minus : Bool) (k : Int32) :
    addGroup rs minus (.const k) = addGroupConst rs (Value.offset minus k) := by
  rw [addGroup]
  rfl

theorem computes_updateGroup_const {w : Nat} {rs : List Reg} (hw : rs.length = w) (hd : rs.Nodup)
    {op : ArithOp} {k : Int32} (hk : k ≠ Int32.minValue) {is : List Instruction}
    (h : (updateGroup rs op (.const k)).Gives is) :
    Computes is w rs fun s => op.onWords (s.bits w rs) (constBits w k) := by
  have hsum {minus : Bool} (h : (addGroup rs minus (.const k)).Gives is) :
      Computes is w rs fun s => accumulate minus (s.bits w rs) (constBits w k) := by
    rw [addGroup_const] at h
    exact computes_addOffset hw hd (.inr hk) h
  cases op with
  | add => exact hsum h
  | sub => exact hsum h
  | and => exact computes_andConst hw hd h
  | or => exact computes_orConst hw hd h
  | shl =>
    change (shiftGroup true rs (.const k)).Gives is at h
    exact computes_shiftGroup hw hd h
  | shr =>
    change (shiftGroup false rs (.const k)).Gives is at h
    exact computes_shiftGroup hw hd h
  | _ => exact absurd h not_gives_fail

/-- A register is shifted by less than its width. -/
theorem exists_gives_shiftReg_iff {m : Mnemonic} (hm : m.forms = [[.reg]]) (r : Reg) (k : Int32) :
    (∃ is, (shiftReg m r (.const k)).Gives is) ↔ 0 ≤ k.toInt ∧ k.toInt < 8 := by
  have hzero : k = 0 ↔ k.toInt = 0 := by
    rw [← Int32.toInt_inj]
    rfl
  have hsteps : (1 ≤ k ∧ k ≤ 7) ↔ 1 ≤ k.toInt ∧ k.toInt ≤ 7 := by
    rw [Int32.le_iff_toInt_le, Int32.le_iff_toInt_le]
    rfl
  simp only [shiftReg, hzero, hsteps]
  split
  · next h => exact iff_of_true ⟨[], _, rfl, rfl⟩ (by omega)
  split
  · next h =>
    refine iff_of_true (exists_gives_of_forall fun x hx => ?_) (by omega)
    obtain rfl := List.eq_of_mem_replicate hx
    exact ⟨_, gives_onReg hm r⟩
  · next h =>
    refine iff_of_false ?_ (by omega)
    rintro ⟨is, his⟩
    exact not_gives_fail his

theorem exists_gives_shiftOnce {first carry : Mnemonic} (hfirst : first.forms = [[.reg]])
    (hcarry : carry.forms = [[.reg]]) (rs : List Reg) :
    ∀ x ∈ shiftOnce first carry rs, ∃ is, x.Gives is := by
  intro x hx
  cases rs with
  | nil => cases hx
  | cons r rs =>
    rcases List.mem_cons.mp hx with rfl | hx
    · exact ⟨_, gives_onReg hfirst r⟩
    · obtain ⟨q, -, rfl⟩ := List.mem_map.mp hx
      exact ⟨_, gives_onReg hcarry q⟩

/-- So is a group. -/
theorem exists_gives_shiftGroup_iff (left : Bool) {rs : List Reg} (hne : rs ≠ []) (k : Int32) :
    (∃ is, (shiftGroup left rs (.const k)).Gives is) ↔
      0 ≤ k.toInt ∧ k.toInt < 8 * rs.length := by
  have hlen := List.length_pos_iff.mpr hne
  have hzero : k = 0 ↔ k.toInt = 0 := by
    rw [← Int32.toInt_inj]
    rfl
  have hneg : k < 0 ↔ k.toInt < 0 := by
    rw [Int32.lt_iff_toInt_lt]
    rfl
  have hclamp : k.toNatClampNeg = k.toInt.toNat := rfl
  simp only [shiftGroup, hzero, hneg, hclamp]
  split
  · next h => exact iff_of_true ⟨[], _, rfl, rfl⟩ (by omega)
  split
  · next h =>
    refine iff_of_false ?_ (by omega)
    rintro ⟨is, his⟩
    exact not_gives_fail his
  · next h =>
    refine iff_of_true (exists_gives_of_forall fun x hx => ?_) (by omega)
    obtain ⟨xs, hxs, hx⟩ := List.mem_flatten.mp hx
    obtain rfl := List.eq_of_mem_replicate hxs
    cases left with
    | true => exact exists_gives_shiftOnce rfl rfl _ x hx
    | false => exact exists_gives_shiftOnce rfl rfl _ x hx

/-- The code that combines a register or a group of distinct registers with a constant, if there is
any, leaves the exact result and changes no other register. The constant is a word of that width
with its sign, but the least one of all has no counterpart to subtract in its place. Shifts have
code exactly for the counts that are less than the width. -/
theorem update_const_exact (op : ArithOp) (target : Value) (rs : List Reg) (k : Int32)
    (hrs : target.assigned = rs) (hne : rs ≠ []) (hd : rs.Nodup) (hk : k ≠ Int32.minValue) :
    (∀ c, assignBy (.update op) target (.const k) = .ok c → ∀ s, ∃ t,
      run c.instructions s = some t ∧
      t.bits rs.length rs = op.onWords (s.bits rs.length rs) (constBits rs.length k) ∧
      ∀ r, r ∉ rs → t.regs r = s.regs r) ∧
    (op = .shl ∨ op = .shr → ((∃ c, assignBy (.update op) target (.const k) = .ok c) ↔
      0 ≤ k.toInt ∧ k.toInt < 8 * rs.length)) := by
  subst hrs
  cases target with
  | reg r =>
    constructor
    · intro c hc
      exact computes_updateReg (v := .const k) rfl (by simp [Value.mentions]) ⟨c, hc, rfl⟩
    · rintro (rfl | rfl)
      · rw [exists_ok_iff]
        exact exists_gives_shiftReg_iff rfl r k
      · rw [exists_ok_iff]
        exact exists_gives_shiftReg_iff rfl r k
  | group rs =>
    constructor
    · intro c hc
      exact computes_updateGroup_const rfl hd hk ⟨c, hc, rfl⟩
    · rintro (rfl | rfl)
      · rw [exists_ok_iff]
        exact exists_gives_shiftGroup_iff true hne k
      · rw [exists_ok_iff]
        exact exists_gives_shiftGroup_iff false hne k
  | _ => exact absurd rfl hne

namespace ConstantSample

/-- `r20.r19.r18.r17.r16` -/
def five : List Reg := [⟨20⟩, ⟨19⟩, ⟨18⟩, ⟨17⟩, ⟨16⟩]

end ConstantSample

open ConstantSample in
theorem update_const_exact_five :
    (∃ c, assignBy (.update .add) (.group five) (.const (-2)) = .ok c ∧ ∀ s, ∃ t,
      run c.instructions s = some t ∧ t.bits 5 five = s.bits 5 five + constBits 5 (-2)) ∧
    (∃ c, assignBy (.update .shl) (.group five) (.const 39) = .ok c) ∧
    ¬ ∃ c, assignBy (.update .shl) (.group five) (.const 40) = .ok c := by
  refine ⟨⟨_, addGroup_const five false (-2), fun s => ?_⟩, ?_, ?_⟩
  · obtain ⟨hexact, -⟩ := update_const_exact .add (.group five) five (-2) rfl (by decide)
      (by decide) (by decide)
    obtain ⟨t, hrun, hbits, -⟩ := hexact _ (addGroup_const five false (-2)) s
    exact ⟨t, hrun, hbits⟩
  · obtain ⟨-, hshift⟩ := update_const_exact .shl (.group five) five 39 rfl (by decide) (by decide)
      (by decide)
    exact (hshift (.inl rfl)).mpr (by decide)
  · obtain ⟨-, hshift⟩ := update_const_exact .shl (.group five) five 40 rfl (by decide) (by decide)
      (by decide)
    exact fun h => absurd ((hshift (.inl rfl)).mp h) (by decide)

end Selection

end Avr
