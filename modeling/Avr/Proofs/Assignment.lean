import Avr.Lowering.Assign
import Avr.Lowering.Resolve
import Avr.Proofs.GroupUpdates
import Avr.Proofs.Moves

namespace Avr

open Cpu

namespace Selection

/-- Loads a leaf. -/
theorem computes_loadConst {r : Reg} {k : Int32} {is : List Instruction}
    (h : (loadConst r k).Gives is) : Computes is 1 [r] fun _ => constBits 1 k := by
  unfold loadConst at h
  split at h
  · next hk =>
    refine computes_emit h fun s => ⟨_, rfl, ?_, fun q hq => set_regs_of_ne _ _ hq⟩
    simp [setBits, hk]
  split at h
  · refine computes_emit h fun s => ⟨_, rfl, ?_, fun q hq => set_regs_of_ne _ _ hq⟩
    simp only [set_regs_self, ofInt_low]
  · exact absurd h not_gives_fail

theorem computes_copyReg {r q : Reg} {is : List Instruction} (h : (copyReg r q).Gives is) :
    Computes is 1 [r] fun s => s.bits 1 [q] := by
  unfold copyReg at h
  split at h
  · next he =>
    rw [gives_nothing h, he]
    exact computes_nil 1 [r]
  · refine computes_emit h fun s => ⟨_, rfl, ?_, fun q hq => set_regs_of_ne _ _ hq⟩
    simp

theorem computes_load {r : Reg} {v : Value} (hv : v.isExpression) (hb : ¬ v.isBinary)
    {is : List Instruction} (h : (load r v).Gives is) : Computes is 1 [r] (v.eval 1) := by
  cases v with
  | const k => exact computes_loadConst h
  | reg q => exact computes_copyReg h
  | group rs => exact absurd h not_gives_fail
  | binary op a b => exact absurd rfl hb
  | _ => cases hv

section

variable {w : Nat} {ds : List Reg} {target : Value}
  (hupdate : ∀ op v is, v.isExpression → (∀ r ∈ ds, ¬ v.mentions r) →
    (update op target v).Gives is →
      Computes is w ds fun s => op.onWords (s.bits w ds) (v.eval w s))

include hupdate

/-- Operands that do not need the target are combined with it one after the other. -/
theorem computes_steps {steps : List (ArithOp × Value)}
    (hv : ∀ v ∈ steps.map Prod.snd, v.isExpression ∧ ∀ r ∈ ds, ¬ v.mentions r)
    {is js : List Instruction} {f : Cpu → BitVec (8 * w)} (hi : Computes is w ds f)
    (h : (sequence (steps.map fun x => update x.1 target x.2)).Gives js) :
    Computes (is ++ js) w ds fun s =>
      steps.foldl (fun acc x => x.1.onWords acc (x.2.eval w s)) (f s) := by
  induction steps generalizing is js f with
  | nil =>
    rw [gives_sequence_nil.mp h, List.append_nil]
    exact hi
  | cons x steps ih =>
    obtain ⟨ks, ls, hk, hl, rfl⟩ := gives_sequence_cons.mp h
    obtain ⟨hx, hm⟩ := hv x.2 (by simp)
    rw [← List.append_assoc]
    exact ih (fun v hm => hv v (by simp [hm])) (hi.update (hupdate x.1 x.2 ks hx hm hk) hm) hl

/-- A folded and flattened expression is computed from its base. -/
theorem computes_linearize (hw4 : w ≤ 4) {v : Value} (hv : v.isExpression)
    (hm : ∀ r ∈ ds, ¬ v.mentions r) {is js : List Instruction}
    (hi : Computes is w ds (v.simplify.linearize.base.eval w))
    (h : (sequence (v.simplify.linearize.steps.map fun x => update x.1 target x.2)).Gives js) :
    Computes (is ++ js) w ds (v.eval w) := by
  obtain ⟨hs, _, he⟩ := Value.simplify_spec hv
  have hparts := Value.parts_linearize hs
  refine (computes_steps hupdate ?_ hi h).congr fun s => ?_
  · intro u hu
    obtain ⟨hu, hum⟩ := hparts u (by simp only [Value.Chain.parts, List.mem_cons, hu, or_true])
    exact ⟨hu, fun r hr hur => hm r hr (Value.mentions_simplify (hum r hur))⟩
  · rw [← he w hw4]
    exact Value.eval_linearize w s v.simplify

end

theorem computes_assignReg {r : Reg} {v : Value} (hv : v.isExpression) (hm : ¬ v.mentions r)
    {is : List Instruction} (h : (assignReg r v).Gives is) : Computes is 1 [r] (v.eval 1) := by
  cases v with
  | binary op a b =>
    simp only [assignReg, computeReg] at h
    split at h
    · exact absurd h not_gives_fail
    next hb =>
    split at h
    · exact absurd h not_gives_fail
    obtain ⟨js, ks, hj, hk, rfl⟩ := gives_sequence_cons.mp h
    have hs := (Value.simplify_spec hv).1
    have hbase := (Value.parts_linearize hs _ List.mem_cons_self).1
    refine computes_linearize ?_ (by omega) hv (by simpa using hm) (computes_load hbase hb hj) hk
    intro op v is hv hm h
    exact computes_updateReg hv (hm r (by simp)) h
  | const | reg | group => exact computes_load hv (by simp [Value.isBinary]) h
  | _ => cases hv

theorem computes_loadGroupConst {w : Nat} {ds : List Reg} (hw : ds.length = w) (hd : ds.Nodup)
    {k : Int32} {is : List Instruction} (h : (loadGroupConst ds k).Gives is) :
    Computes is w ds fun _ => constBits w k := by
  intro s
  unfold loadGroupConst at h
  split at h
  · exact absurd h not_gives_fail
  have hfst : (highFirst ds).map Prod.fst = (List.range w).reverse := by
    simp [highFirst, List.map_fst_zip, hw]
  have hsnd : (highFirst ds).map Prod.snd = ds := by
    simp [highFirst, List.map_snd_zip]
  refine (ends_writes Prod.snd (fun x => BitVec.ofInt 8 (constByte k x.1).toInt) ds ?_
    (by rwa [hsnd]) (fun x hx => hsnd ▸ List.mem_map_of_mem hx) h).imp ?_
  · rintro ⟨n, r⟩ hx is hi t ht
    simp only at hi
    split at hi
    · next hk =>
      rw [gives_emit hi]
      refine ends_one rfl ⟨?_, fun q hq => set_regs_of_ne _ _ hq⟩
      simp [setBits, hk]
    · rw [gives_emit hi]
      exact ends_one rfl ⟨set_regs_self _ _ _, fun q hq => set_regs_of_ne _ _ hq⟩
  · rintro t ⟨hv, ho⟩
    refine ⟨?_, fun q hq => ho q (by rwa [hsnd])⟩
    apply BitVec.eq_of_toNat_eq
    have hrev : (highFirst ds).reverse.map Prod.snd = ds.reverse := by rw [List.map_reverse, hsnd]
    rw [toNat_bits hw, number_eq_little hrev, ← little_constBytes,
      ← List.reverse_reverse (List.range w), ← hfst, ← List.map_reverse, List.map_map]
    exact congrArg little (List.map_congr_left fun x hx => hv x (by simpa using hx))

theorem computes_moveGroup {w : Nat} {ds ss : List Reg} (hd : ds.Nodup) {is : List Instruction}
    (h : (moveGroup ds ss).Gives is) : Computes is w ds fun s => s.bits w ss := by
  intro s
  obtain ⟨hlen, hmove⟩ := ends_moveGroup hd h s
  refine hmove.imp ?_
  rintro t ⟨hv, ho⟩
  refine ⟨congrArg (BitVec.ofNat _) ?_, ho⟩
  rw [number_zip_left hlen.symm, number_zip_right hlen.symm]
  exact congrArg little (List.map_congr_left fun x hx => hv x (by simpa using hx))

end Selection

theorem Value.foldedChain_some {op : BinaryOp} {a b : Value}
    {c : { c : Chain // c.base.weight < (binary op a b).weight }}
    (h : foldedChain? op a b = some c) :
    c.1 = (binary op a b).simplify.linearize ∧ ¬ c.1.base.isBinary := by
  unfold foldedChain? at h
  split at h
  · cases h
  · next hb =>
    cases h
    exact ⟨rfl, hb⟩

namespace Selection

theorem computes_assignGroup_leaf {w : Nat} {ds : List Reg} (hw : ds.length = w) (hd : ds.Nodup)
    {v : Value} (hv : v.isExpression) (hb : ¬ v.isBinary) {is : List Instruction}
    (h : (assignGroup ds v).Gives is) : Computes is w ds (v.eval w) := by
  cases v with
  | const k =>
    rw [assignGroup] at h
    exact computes_loadGroupConst hw hd h
  | group ss =>
    rw [assignGroup] at h
    exact computes_moveGroup hd h
  | reg r =>
    rw [assignGroup] at h
    exact absurd h not_gives_fail
  | binary op a b => exact absurd rfl hb
  | _ => cases hv

theorem computes_assignGroup {w : Nat} (hw4 : w ≤ 4) {ds : List Reg} (hw : ds.length = w)
    (hd : ds.Nodup) {v : Value} (hv : v.isExpression) (hm : ∀ r ∈ ds, ¬ v.mentions r)
    {is : List Instruction} (h : (assignGroup ds v).Gives is) : Computes is w ds (v.eval w) := by
  by_cases hb : v.isBinary
  · obtain ⟨op, a, b, rfl⟩ : ∃ op a b, v = .binary op a b := by
      cases v with
      | binary op a b => exact ⟨op, a, b, rfl⟩
      | _ => cases hb
    obtain ⟨hs, hc, _⟩ := Value.simplify_spec hv
    have hc : ¬ (Value.binary op a b).simplify.isConst := by
      rw [hc]
      simp [Value.isConst]
    rw [assignGroup] at h
    simp only [Value.address_eq_none hs hc, Value.externalAddress_eq_none hs] at h
    split at h
    · next heq => cases heq
    · next heq => cases heq
    · exact absurd h not_gives_fail
    · next chain hlt hchain =>
      split at h
      · exact absurd h not_gives_fail
      obtain ⟨rfl, hbase⟩ := Value.foldedChain_some hchain
      obtain ⟨js, ks, hj, hk, rfl⟩ := gives_sequence_cons.mp h
      have hpart := (Value.parts_linearize hs _ List.mem_cons_self).1
      refine computes_linearize ?_ hw4 hv hm (computes_assignGroup_leaf hw hd hpart hbase hj) hk
      intro op v is hv hm h
      exact computes_updateGroup hw4 hw hd hv hm h
  · exact computes_assignGroup_leaf hw hd hv hb h

theorem computes_assign {ds : List Reg} {v : Value} (hlen : ds ≠ [] ∧ ds.length ≤ 4) (hd : ds.Nodup)
    (hv : v.isExpression) (hm : ∀ r ∈ ds, ¬ v.mentions r) {is : List Instruction}
    (h : (assign (.ofRegisters ds) v).Gives is) : Computes is ds.length ds (v.eval ds.length) := by
  have hsingle : assign (.ofRegisters ds) v = assignSingle (.ofRegisters ds) v := by
    cases v with
    | assign => cases hv
    | _ => rfl
  rw [hsingle] at h
  match ds with
  | [] => exact absurd rfl hlen.1
  | [r] => exact computes_assignReg hv (hm r (by simp)) h
  | r :: q :: rs => exact computes_assignGroup hlen.2 rfl hd hv hm h

/-- Whenever an assignment of an expression to other registers has code, the code leaves the value
of the expression in its target, computed in as many bytes as the target has, and changes nothing
else. -/
theorem assign_computes_expression (ds : List Reg) (v : Value) (hlen : ds ≠ [] ∧ ds.length ≤ 4)
    (hd : ds.Nodup) (hv : v.isExpression) (hm : ∀ r ∈ ds, ¬ v.mentions r) (c : Code)
    (h : assign (.ofRegisters ds) v = .ok c) (s : Cpu) :
    ∃ t, run c.instructions s = some t ∧ t.number ds = (v.eval ds.length s).toNat ∧
      ∀ r, r ∉ ds → t.regs r = s.regs r := by
  obtain ⟨t, hr, hv, ho⟩ := computes_assign hlen hd hv hm ⟨c, h, rfl⟩ s
  exact ⟨t, hr, by rw [← toNat_bits rfl, hv], ho⟩

/-- `((300 - (a + 7)) ^ b) >> 3` -/
def sampleExpression (a b : List Reg) : Value :=
  let sum : Value := .binary (.arith .add) (.group a) (.const 7)
  let difference : Value := .binary (.arith .sub) (.const 300) sum
  .binary (.arith .shr) (.binary (.arith .xor) difference (.group b)) (.const 3)

/-- Register `rn` holds `11 * n`. -/
def sampleCpu : Cpu := ⟨fun r => BitVec.ofNat 8 (11 * r.number), {}⟩

theorem assign_computes_expression_sample :
    ∃ c t, assign (.ofRegisters [⟨17⟩, ⟨16⟩]) (sampleExpression [⟨21⟩, ⟨20⟩] [⟨25⟩, ⟨24⟩]) = .ok c ∧
      run c.instructions sampleCpu = some t ∧ t.number [⟨17⟩, ⟨16⟩] = 328 ∧
      ∀ r, r ∉ [⟨17⟩, ⟨16⟩] → t.regs r = sampleCpu.regs r := by
  have hok : (assign (.ofRegisters [⟨17⟩, ⟨16⟩])
      (sampleExpression [⟨21⟩, ⟨20⟩] [⟨25⟩, ⟨24⟩])).isOk := by decide +kernel
  cases h : assign (.ofRegisters [⟨17⟩, ⟨16⟩]) (sampleExpression [⟨21⟩, ⟨20⟩] [⟨25⟩, ⟨24⟩]) with
  | error e => simp [h, Except.isOk, Except.toBool] at hok
  | ok c =>
    obtain ⟨t, hr, hv, ho⟩ := assign_computes_expression [⟨17⟩, ⟨16⟩] _ (by decide) (by decide)
      (by decide) (by decide) c h sampleCpu
    exact ⟨c, t, rfl, hr, hv.trans (by decide), ho⟩

end Selection

end Avr
