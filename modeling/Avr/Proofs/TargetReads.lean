import Avr.Proofs.Assignment
import Mathlib.Algebra.BigOperators.Fin
import Mathlib.Data.BitVec

namespace Avr

open Cpu

/-- A constant and registers, each taken a number of times, as one byte. -/
@[ext] structure Combination where
  const : Byte
  factor : Reg → Byte

namespace Combination

def value (s : Cpu) (f : Combination) : Byte :=
  f.const + ∑ i : Fin 32, f.factor ⟨i⟩ * s.regs ⟨i⟩

def ofConst (k : Int32) : Combination := ⟨constBits 1 k, fun _ => 0⟩

def ofReg (r : Reg) : Combination := ⟨0, fun q => if q = r then 1 else 0⟩

/-- Adds the other one, or subtracts it. -/
def accumulate (minus : Bool) (f g : Combination) : Combination :=
  ⟨Avr.accumulate minus f.const g.const, fun r => Avr.accumulate minus (f.factor r) (g.factor r)⟩

theorem value_ofConst (s : Cpu) (k : Int32) : (ofConst k).value s = constBits 1 k := by
  simp [value, ofConst]

theorem value_ofReg (s : Cpu) (r : Reg) : (ofReg r).value s = s.regs r := by
  obtain ⟨i⟩ := r
  simp only [value, ofReg, Reg.mk.injEq, ite_mul, one_mul, zero_mul, Finset.sum_ite_eq',
    Finset.mem_univ, if_true, zero_add]

theorem value_accumulate (s : Cpu) (minus : Bool) (f g : Combination) :
    (f.accumulate minus g).value s = Avr.accumulate minus (f.value s) (g.value s) := by
  cases minus with
  | false =>
    simp only [value, accumulate, Avr.accumulate, Bool.false_eq_true, if_false, add_mul,
      Finset.sum_add_distrib]
    ring
  | true =>
    simp only [value, accumulate, Avr.accumulate, if_true, sub_mul, Finset.sum_sub_distrib]
    ring

/-- Combinations with the same value in every state are the same. -/
theorem eq_of_value {f g : Combination} (h : ∀ s, f.value s = g.value s) : f = g := by
  have hc : f.const = g.const := by
    have hz := h ⟨fun _ => 0, {}⟩
    simpa only [value, mul_zero, Finset.sum_const_zero, add_zero] using hz
  refine Combination.ext hc (funext fun r => ?_)
  obtain ⟨i⟩ := r
  have hr := h ⟨fun q => if q = ⟨i⟩ then 1 else 0, {}⟩
  simpa only [value, hc, Reg.mk.injEq, mul_ite, mul_one, mul_zero, Finset.sum_ite_eq',
    Finset.mem_univ, if_true, add_right_inj] using hr

end Combination

namespace ArithOp

def isAdditive : ArithOp → Bool
  | add | sub => true
  | _ => false

end ArithOp

namespace Value

/-- A tree of sums and differences over registers and constants. -/
def isSum : Value → Bool
  | const _ | reg _ => true
  | binary (.arith op) a b => op.isAdditive && a.isSum && b.isSum
  | _ => false

theorem isSum_binary {op : ArithOp} {a b : Value} :
    (binary (.arith op) a b).isSum ↔ op.isAdditive ∧ a.isSum ∧ b.isSum := by
  simp only [isSum, Bool.and_eq_true, and_assoc]

/-- What a sum stands for. -/
def combination : Value → Combination
  | const k => .ofConst k
  | reg r => .ofReg r
  | binary op a b => a.combination.accumulate (op = .arith .sub) b.combination
  | _ => .ofConst 0

theorem value_combination {v : Value} (hv : v.isSum) (s : Cpu) :
    v.combination.value s = v.eval 1 s := by
  induction v with
  | const k => exact Combination.value_ofConst s k
  | reg r => exact (Combination.value_ofReg s r).trans (s.bits_single r).symm
  | binary op a b iha ihb =>
    cases op with
    | arith op =>
      obtain ⟨hop, ha, hb⟩ := isSum_binary.mp hv
      rw [combination, Combination.value_accumulate, iha ha, ihb hb]
      cases op with
      | add => rfl
      | sub => rfl
      | _ => cases hop
    | _ => cases hv
  | _ => cases hv

theorem isSum_displace {minus : Bool} {v : Value} {k : Int32} (hv : v.isSum) :
    (displace minus v k).isSum := by
  unfold displace
  split
  · exact hv
  · split <;> cases minus <;> exact isSum_binary.mpr ⟨rfl, hv, rfl⟩

theorem isSum_addConst {minus : Bool} {v : Value} {k : Int32} (hv : v.isSum) :
    (addConst minus v k).isSum := by
  unfold addConst
  split
  · next inner u j hd =>
    have hu : u.isSum := by
      unfold displaced? at hd
      split at hd <;> cases hd <;> exact (isSum_binary.mp hv).2.1
    exact isSum_displace hu
  · exact isSum_displace hv

theorem isSum_combine {op : ArithOp} {a b : Value} (hop : op.isAdditive) (ha : a.isSum)
    (hb : b.isSum) : (combine (.arith op) a b).isSum := by
  have hnode : (binary (.arith op) a b).isSum := isSum_binary.mpr ⟨hop, ha, hb⟩
  unfold combine
  split
  · split
    · rfl
    · exact hnode
  · split
    · exact isSum_addConst ha
    · exact isSum_addConst ha
    · exact hnode
  · exact hnode

theorem isSum_simplify {v : Value} (hv : v.isSum) : v.simplify.isSum := by
  induction v with
  | const | reg => exact hv
  | binary op a b iha ihb =>
    cases op with
    | arith op =>
      obtain ⟨hop, ha, hb⟩ := isSum_binary.mp hv
      exact isSum_combine hop (iha ha) (ihb hb)
    | _ => cases hv
  | _ => cases hv

theorem spine_isSum {v : Value} (hv : v.isSum) :
    v.spine.base.isSum ∧ ∀ x ∈ v.spine.steps, x.1.isAdditive ∧ x.2.isSum := by
  induction v with
  | const | reg => exact ⟨hv, by simp [spine]⟩
  | binary op a b iha ihb =>
    cases op with
    | arith op =>
      obtain ⟨hop, ha, hb⟩ := isSum_binary.mp hv
      obtain ⟨hbase, hsteps⟩ := iha ha
      refine ⟨hbase, ?_⟩
      intro x hx
      rcases List.mem_append.mp hx with hx | hx
      · exact hsteps x hx
      · obtain rfl := List.mem_singleton.mp hx
        exact ⟨hop, hb⟩
    | _ => cases hv
  | _ => cases hv

theorem linearize_isSum {v : Value} (hv : v.isSum) :
    v.linearize.base.isSum ∧ ∀ x ∈ v.linearize.steps, x.1.isAdditive ∧ x.2.isSum := by
  obtain ⟨hbase, hsteps⟩ := spine_isSum hv
  unfold linearize
  split
  · next k x rest h =>
    rw [h] at hsteps
    refine ⟨(hsteps (.add, x) (by simp)).2, ?_⟩
    intro y hy
    rcases List.mem_cons.mp hy with rfl | hy
    · exact ⟨rfl, rfl⟩
    · exact hsteps y (by simp [hy])
  · exact ⟨hbase, hsteps⟩

/-- The terms to add for a step. -/
def signedLeaves (op : ArithOp) (v : Value) : List (Bool × Value) :=
  v.leaves.map fun l => (decide (op = .sub) ^^ l.1, l.2)

end Value

namespace Combination

/-- Adds one more term to what the target holds. If the term is the target, it adds that once
more. -/
def addTerm (x : Reg) (f : Combination) (t : Bool × Value) : Combination :=
  f.accumulate t.1 (if t.2 = .reg x then f else t.2.combination)

def addTerms (x : Reg) (f : Combination) (ts : List (Bool × Value)) : Combination :=
  ts.foldl (addTerm x) f

/-- The target holds this combination of the registers of the first state. The other registers are
as they were. -/
def Holds (f : Combination) (x : Reg) (first s : Cpu) : Prop :=
  s.regs x = f.value first ∧ ∀ r, r ≠ x → s.regs r = first.regs r

end Combination

namespace AssignOp

def isAdditive : AssignOp → Bool
  | set => true
  | update op => op.isAdditive

/-- What the target holds before any term is added to it. -/
def start (x : Reg) (e : Value) : AssignOp → Value
  | set => e.simplify.linearize.base
  | update _ => .reg x

def terms (e : Value) : AssignOp → List (Bool × Value)
  | set => e.simplify.linearize.steps.flatMap fun x => x.2.signedLeaves x.1
  | update op => e.signedLeaves op

/-- What the code of an assignment leaves in its target. -/
def computed (x : Reg) (e : Value) (op : AssignOp) : Combination :=
  (op.start x e).combination.addTerms x (op.terms e)

/-- What an assignment asks for. -/
def intended (x : Reg) (e : Value) : AssignOp → Combination
  | set => e.combination
  | update op => (Combination.ofReg x).accumulate (op = .sub) e.combination

/-- The new value of the target, from the old one and the value assigned. -/
def onWords : AssignOp → BitVec n → BitVec n → BitVec n
  | set, _, b => b
  | update op, a, b => op.onWords a b

end AssignOp

namespace Selection

open Combination

theorem holds_addRegLeaf {f : Combination} {x : Reg} {first s : Cpu} {minus : Bool} {v : Value}
    {is : List Instruction} (h : (addRegLeaf x minus v).Gives is) (hs : f.Holds x first s) :
    Ends is s ((f.addTerm x (minus, v)).Holds x first) := by
  have hv : v.eval 1 s = (if v = .reg x then f else v.combination).value first := by
    cases v with
    | const k => exact (value_ofConst first k).symm
    | reg r =>
      by_cases hr : r = x
      · rw [hr, if_pos rfl, ← hs.1]
        exact s.bits_single x
      · rw [if_neg (by simpa using hr), Value.combination, value_ofReg, ← hs.2 r hr]
        exact s.bits_single r
    | _ => exact absurd h not_gives_fail
  refine (computes_addRegLeaf h s).imp ?_
  rintro t ⟨ht, ho⟩
  refine ⟨?_, fun r hr => (ho r (by simpa using hr)).trans (hs.2 r hr)⟩
  rw [addTerm, value_accumulate, ← hv, ← hs.1, ← s.bits_single x]
  exact (t.bits_single x).symm.trans ht

theorem holds_addRegLeaves {f : Combination} {x : Reg} {first s : Cpu} {ts : List (Bool × Value)}
    {is : List Instruction} (h : (sequence (ts.map fun l => addRegLeaf x l.1 l.2)).Gives is)
    (hs : f.Holds x first s) : Ends is s ((f.addTerms x ts).Holds x first) := by
  induction ts generalizing f s is with
  | nil =>
    rw [gives_sequence_nil.mp h]
    exact ends_nil hs
  | cons t ts ih =>
    obtain ⟨js, ks, hj, hk, rfl⟩ := gives_sequence_cons.mp h
    exact (holds_addRegLeaf hj hs).append fun u hu => ih hk hu

theorem gives_updateReg {x : Reg} {op : ArithOp} (hop : op.isAdditive) {v : Value}
    {is : List Instruction} (h : (updateReg x op v).Gives is) :
    (sequence ((v.signedLeaves op).map fun l => addRegLeaf x l.1 l.2)).Gives is := by
  rw [Value.signedLeaves, List.map_map]
  cases op with
  | add => exact gives_addReg h
  | sub => exact gives_addReg h
  | _ => cases hop

theorem holds_ofReg (x : Reg) (s : Cpu) : (ofReg x).Holds x s s :=
  ⟨(value_ofReg s x).symm, fun _ _ => rfl⟩

theorem holds_load {x : Reg} {v : Value} (hv : v.isSum) (hb : ¬ v.isBinary)
    {is : List Instruction} (h : (load x v).Gives is) (s : Cpu) :
    Ends is s (v.combination.Holds x s) := by
  have he : v.isExpression := by
    cases v with
    | const | reg => rfl
    | binary => exact absurd rfl hb
    | _ => cases hv
  refine (computes_load he hb h s).imp ?_
  rintro t ⟨ht, ho⟩
  refine ⟨?_, fun r hr => ho r (by simpa using hr)⟩
  rw [Value.value_combination hv]
  exact (t.bits_single x).symm.trans ht

theorem holds_assignReg {x : Reg} {e : Value} (he : e.isSum) {is : List Instruction}
    (h : (assignReg x e).Gives is) (s : Cpu) :
    Ends is s ((AssignOp.set.computed x e).Holds x s) := by
  cases e with
  | const | reg => exact holds_load he (by simp [Value.isBinary]) h s
  | binary op a b =>
    obtain ⟨hbase, hsteps⟩ := Value.linearize_isSum (Value.isSum_simplify he)
    simp only [assignReg, computeReg] at h
    split at h
    · exact absurd h not_gives_fail
    next hb =>
    split at h
    · exact absurd h not_gives_fail
    obtain ⟨js, ks, hj, hk, rfl⟩ := gives_sequence_cons.mp h
    refine (holds_load hbase hb hj s).append fun t ht => holds_addRegLeaves ?_ ht
    rw [AssignOp.terms, List.map_flatMap]
    exact gives_sequence_flatMap (fun y hy is hi => gives_updateReg (hsteps y hy).1 hi) hk
  | _ => cases he

theorem holds_assignBy {op : AssignOp} (hop : op.isAdditive) {x : Reg}
    {e : Value} (he : e.isSum) {is : List Instruction} (h : (assignBy op (.reg x) e).Gives is)
    (s : Cpu) : Ends is s ((op.computed x e).Holds x s) := by
  cases op with
  | set =>
    refine holds_assignReg he ?_ s
    cases e with
    | assign => cases he
    | _ => exact h
  | update op =>
    exact holds_addRegLeaves (gives_updateReg hop h) (holds_ofReg x s)

end Selection

namespace AssignOp

theorem value_intended {op : AssignOp} (hop : op.isAdditive) (x : Reg)
    {e : Value} (he : e.isSum) (s : Cpu) :
    (op.intended x e).value s = op.onWords (s.regs x) (e.eval 1 s) := by
  cases op with
  | set => exact Value.value_combination he s
  | update op =>
    rw [intended, Combination.value_accumulate, Combination.value_ofReg, Value.value_combination he]
    cases op with
    | add => rfl
    | sub => rfl
    | _ => cases hop

end AssignOp

namespace Selection

/-- An assignment of a sum to a register, plain or with `+=` or `-=`, changes no other register. It
leaves there what it is meant to, in every state, exactly if the terms that read the target after it
was written make no difference to the combination of registers that is computed. -/
theorem assignBy_computes_sum_iff (op : AssignOp) (hop : op.isAdditive)
    (x : Reg) (e : Value) (he : e.isSum) (c : Code) (h : assignBy op (.reg x) e = .ok c) :
    (∀ s, ∃ t, run c.instructions s = some t ∧ ∀ r, r ≠ x → t.regs r = s.regs r) ∧
      ((∀ s t, run c.instructions s = some t → t.regs x = op.onWords (s.regs x) (e.eval 1 s)) ↔
        op.computed x e = op.intended x e) := by
  have hends (s : Cpu) := holds_assignBy hop he ⟨c, h, rfl⟩ s
  refine ⟨?_, ?_, ?_⟩
  · intro s
    obtain ⟨t, hr, _, ho⟩ := hends s
    exact ⟨t, hr, ho⟩
  · intro hright
    refine Combination.eq_of_value fun s => ?_
    obtain ⟨t, hr, hx, _⟩ := hends s
    rw [← hx, hright s t hr, AssignOp.value_intended hop x he]
  · intro heq s t hr
    obtain ⟨t', hr', hx, _⟩ := hends s
    obtain rfl : t = t' := Option.some.inj (hr.symm.trans hr')
    rw [hx, heq, AssignOp.value_intended hop x he]

/-- `r + r + r` -/
def triple (r : Reg) : Value :=
  .binary (.arith .add) (.binary (.arith .add) (.reg r) (.reg r)) (.reg r)

/-- The second sum reads what the first one has left, and the register is taken four times. -/
theorem assignBy_computes_sum_iff_triple :
    ∃ c, assignBy .set (.reg ⟨16⟩) (triple ⟨16⟩) = .ok c ∧
      (∀ s, ∃ t, run c.instructions s = some t ∧ ∀ r, r ≠ ⟨16⟩ → t.regs r = s.regs r) ∧
      ¬ ∀ s t, run c.instructions s = some t → t.regs ⟨16⟩ = (triple ⟨16⟩).eval 1 s := by
  have hok : (assignBy .set (.reg ⟨16⟩) (triple ⟨16⟩)).isOk := by decide +kernel
  have hwrong : AssignOp.set.computed ⟨16⟩ (triple ⟨16⟩) ≠
      AssignOp.set.intended ⟨16⟩ (triple ⟨16⟩) := by
    intro h
    have hfactor := congrArg (Combination.factor · ⟨16⟩) h
    revert hfactor
    decide +kernel
  cases h : assignBy .set (.reg ⟨16⟩) (triple ⟨16⟩) with
  | error e => simp [h, Except.isOk, Except.toBool] at hok
  | ok c =>
    obtain ⟨hruns, hiff⟩ := assignBy_computes_sum_iff .set rfl ⟨16⟩ (triple ⟨16⟩) rfl c h
    exact ⟨c, rfl, hruns, fun hright => hwrong (hiff.mp hright)⟩

end Selection

end Avr
