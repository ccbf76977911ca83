import Avr.Lowering.Update
import Avr.Proofs.Expression

namespace Avr

open Cpu

/-- The instructions leave this value in the group, and no other register changes. -/
def Computes (is : List Instruction) (w : Nat) (ds : List Reg) (f : Cpu → BitVec (8 * w)) : Prop :=
  ∀ s, Ends is s fun t => t.bits w ds = f s ∧ ∀ r, r ∉ ds → t.regs r = s.regs r

/-- A value that does not need the group is combined with what is there. -/
theorem Computes.update {is js : List Instruction} {w : Nat} {ds : List Reg}
    {f : Cpu → BitVec (8 * w)} {g : BitVec (8 * w) → BitVec (8 * w) → BitVec (8 * w)} {v : Value}
    (hi : Computes is w ds f) (hj : Computes js w ds fun s => g (s.bits w ds) (v.eval w s))
    (hv : ∀ r ∈ ds, ¬ v.mentions r) : Computes (is ++ js) w ds fun s => g (f s) (v.eval w s) := by
  intro s
  refine (hi s).append (fun t ht => (hj t).imp (fun u hu => ?_))
  have he : v.eval w t = v.eval w s := Value.eval_congr fun r hr => ht.2 r fun hm => hv r hm hr
  refine ⟨?_, fun r hr => ?_⟩
  · simp only [hu.1, ht.1, he]
  · rw [hu.2 r hr, ht.2 r hr]

theorem Computes.congr {is : List Instruction} {w : Nat} {ds : List Reg}
    {f g : Cpu → BitVec (8 * w)} (h : Computes is w ds f) (hg : ∀ s, f s = g s) :
    Computes is w ds g :=
  fun s => (h s).imp fun _ ht => ⟨ht.1.trans (hg s), ht.2⟩

theorem Computes.bits_of_run {is : List Instruction} {w : Nat} {ds : List Reg}
    {f : Cpu → BitVec (8 * w)} (h : Computes is w ds f) {s t : Cpu} (hrun : run is s = some t) :
    t.bits w ds = f s := by
  obtain ⟨u, hrun', hbits, -⟩ := h s
  cases hrun.symm.trans hrun'
  exact hbits

theorem computes_nil (w : Nat) (ds : List Reg) : Computes [] w ds fun s => s.bits w ds :=
  fun _ => ends_nil ⟨rfl, fun _ _ => rfl⟩

/-- The code of an instruction that sets one register. -/
theorem computes_emit {m : Mnemonic} {operands : List Operand} {is : List Instruction} {r : Reg}
    {f : Cpu → Byte} (h : (Selection.emit m operands).Gives is)
    (he : ∀ s : Cpu, ∃ t, s.exec ⟨m, operands, none⟩ = some t ∧ t.regs r = f s ∧
      ∀ q, q ≠ r → t.regs q = s.regs q) : Computes is 1 [r] f := by
  intro s
  obtain ⟨t, he, hr, ho⟩ := he s
  rw [Selection.gives_emit h]
  exact ends_one he ⟨(t.bits_single r).trans hr, fun q hq => ho q (by simpa using hq)⟩

theorem computes_iterate (xs : List Selection) {w : Nat} {ds : List Reg}
    {g : BitVec (8 * w) → BitVec (8 * w)}
    (hx : ∀ is, (Selection.sequence xs).Gives is → Computes is w ds fun s => g (s.bits w ds))
    {n : Nat} {is : List Instruction}
    (h : (Selection.sequence (List.replicate n xs).flatten).Gives is) :
    Computes is w ds fun s => g^[n] (s.bits w ds) := by
  induction n generalizing is with
  | zero =>
    rw [Selection.gives_sequence_nil.mp h]
    exact computes_nil w ds
  | succ n ih =>
    rw [List.replicate_succ, List.flatten_cons] at h
    obtain ⟨js, ks, hj, hk, rfl⟩ := Selection.gives_sequence_append.mp h
    intro s
    refine (hx js hj s).append (fun t ht => (ih hk t).imp (fun u hu => ⟨?_, fun r hr => ?_⟩))
    · simp only [hu.1, ht.1, Function.iterate_succ_apply]
    · rw [hu.2 r hr, ht.2 r hr]

theorem iterate_shiftLeft (n : Nat) (x : BitVec m) :
    (fun y : BitVec m => y <<< 1)^[n] x = x <<< n := by
  induction n generalizing x with
  | zero => simp
  | succ n ih => rw [Function.iterate_succ_apply, ih, ← BitVec.shiftLeft_add, Nat.add_comm]

theorem iterate_shiftRight (n : Nat) (x : BitVec m) :
    (fun y : BitVec m => y >>> 1)^[n] x = x >>> n := by
  induction n generalizing x with
  | zero => simp
  | succ n ih => rw [Function.iterate_succ_apply, ih, ← BitVec.shiftRight_add, Nat.add_comm]

namespace Selection

theorem gives_sequence_flatMap {α : Type} {f : α → Selection} {g : α → List Selection} {xs : List α}
    (h : ∀ x ∈ xs, ∀ is, (f x).Gives is → (sequence (g x)).Gives is) {is : List Instruction}
    (hs : (sequence (xs.map f)).Gives is) : (sequence (xs.flatMap g)).Gives is := by
  induction xs generalizing is with
  | nil => exact hs
  | cons x xs ih =>
    obtain ⟨js, ks, hj, hk, rfl⟩ := gives_sequence_cons.mp hs
    rw [List.flatMap_cons]
    exact gives_sequence_append.mpr
      ⟨js, ks, h x (by simp) js hj, ih (fun y hy => h y (by simp [hy])) hk, rfl⟩

/-- A way to add sums that goes down to the terms adds the leaves one after the other. The terms may
be known to be of some kind. -/
theorem gives_leaves {P : Value → Prop}
    (hterm : ∀ v ts, P v → v.foldedTerms? = some ts → ∀ t ∈ ts, P t.1.2)
    (add leaf : Bool → Value → Selection)
    (hsum : ∀ minus v is ts, P v → (add minus v).Gives is → v.foldedTerms? = some ts →
      (sequence (ts.map fun t => add (minus ^^ t.1.1) t.1.2)).Gives is)
    (hleaf : ∀ minus v is, P v → (add minus v).Gives is → v.foldedTerms? = none →
      (leaf minus v.simplify).Gives is)
    {minus : Bool} {v : Value} (hv : P v) {is : List Instruction} (h : (add minus v).Gives is) :
    (sequence (v.leaves.map fun l => leaf (minus ^^ l.1) l.2)).Gives is := by
  induction hn : v.weight using Nat.strong_induction_on generalizing v minus is with
  | _ n ih =>
    subst hn
    rw [Value.leaves]
    split
    · next ts hts =>
      rw [List.map_flatMap]
      refine gives_sequence_flatMap ?_ (hsum minus v is ts hv h hts)
      intro t ht js hj
      have := ih _ t.2 (hterm v ts hv hts t ht) hj rfl
      simpa [List.map_map, Function.comp_def, Bool.xor_assoc] using this
    · next hts =>
      refine gives_sequence_cons.mpr ⟨is, [], ?_, gives_sequence_nil.mpr rfl, by simp⟩
      simpa using hleaf minus v is hv h hts

/-- Terms that do not need the group are added to it one after the other. -/
theorem computes_total (leaf : Bool → Value → Selection) {w : Nat} {ds : List Reg}
    {ts : List (Bool × Value)}
    (hleaf : ∀ t ∈ ts, ∀ is, (leaf t.1 t.2).Gives is →
      Computes is w ds fun s => accumulate t.1 (s.bits w ds) (t.2.eval w s))
    (hm : ∀ t ∈ ts, ∀ r ∈ ds, ¬ t.2.mentions r) {is : List Instruction}
    (h : (sequence (ts.map fun t => leaf t.1 t.2)).Gives is) :
    Computes is w ds fun s => Value.total w s (s.bits w ds) ts := by
  induction ts generalizing is with
  | nil =>
    rw [gives_sequence_nil.mp h]
    exact computes_nil w ds
  | cons t ts ih =>
    obtain ⟨js, ks, hj, hk, rfl⟩ := gives_sequence_cons.mp h
    intro s
    refine (hleaf t (by simp) js hj s).append (fun u hu => ?_)
    refine (ih (fun t ht => hleaf t (by simp [ht])) (fun t ht => hm t (by simp [ht])) hk u).imp ?_
    rintro v ⟨hv, ho⟩
    refine ⟨?_, fun r hr => by rw [ho r hr, hu.2 r hr]⟩
    refine hv.trans ?_
    simp only [hu.1]
    refine Value.total_congr fun t' ht' r hr => hu.2 r fun hd => ?_
    exact hm t' (by simp [ht']) r hd hr

/-- Adding an expression, by any code that adds its leaves. -/
theorem computes_leaves {leaf : Bool → Value → Selection} {w : Nat} (hw : w ≤ 4) {ds : List Reg}
    {minus : Bool} {v : Value} (hv : v.isExpression) (hm : ∀ r ∈ ds, ¬ v.mentions r)
    (hleaf : ∀ m u is, u.isExpression → (∀ r ∈ ds, ¬ u.mentions r) → (leaf m u).Gives is →
      Computes is w ds fun s => accumulate m (s.bits w ds) (u.eval w s))
    {is : List Instruction}
    (h : (sequence (v.leaves.map fun l => leaf (minus ^^ l.1) l.2)).Gives is) :
    Computes is w ds fun s => accumulate minus (s.bits w ds) (v.eval w s) := by
  obtain ⟨he, hl⟩ := Value.leaves_spec hv
  have hts : ∀ t ∈ v.leaves.map (fun l => (minus ^^ l.1, l.2)),
      t.2.isExpression ∧ ∀ r ∈ ds, ¬ t.2.mentions r := by
    intro t ht
    obtain ⟨l, hmem, rfl⟩ := List.mem_map.mp ht
    exact ⟨(hl l hmem).1, fun r hr hrl => hm r hr ((hl l hmem).2 r hrl)⟩
  have hc : Computes is w ds fun s =>
      Value.total w s (s.bits w ds) (v.leaves.map fun l => (minus ^^ l.1, l.2)) := by
    refine computes_total leaf ?_ (fun t ht => (hts t ht).2) ?_
    · intro t ht js hj
      exact hleaf _ _ js (hts t ht).1 (hts t ht).2 hj
    · simpa [List.map_map, Function.comp_def] using h
  refine hc.congr fun s => ?_
  rw [Value.total_map_sign, he w hw]
  simp

theorem computes_addRegConst {r : Reg} {k : Int32} {is : List Instruction}
    (h : (addRegConst r k).Gives is) :
    Computes is 1 [r] fun s => s.bits 1 [r] + constBits 1 k := by
  unfold addRegConst at h
  split at h
  · next hk =>
    rw [gives_warn h, hk]
    simpa using computes_nil 1 [r]
  split at h
  · next hk =>
    refine computes_emit h fun s => ⟨_, rfl, ?_, fun q hq => set_regs_of_ne _ _ hq⟩
    simp [increment, constBits, hk]
  split at h
  · next hk =>
    refine computes_emit h fun s => ⟨_, rfl, ?_, fun q hq => set_regs_of_ne _ _ hq⟩
    simp only [decrement, set_regs_self, bits_single, hk]
    exact BitVec.sub_eq_add_neg _ _
  split at h
  · refine computes_emit h fun s => ⟨_, rfl, ?_, fun q hq => set_regs_of_ne _ _ hq⟩
    have hneg : constBits 1 (-k) = -constBits 1 k := constBits_neg (.inl (by omega))
    simp only [subByte, set_regs_self, bits_single, ofInt_low, hneg]
    simp [BitVec.sub_eq_add_neg]
  · exact absurd h not_gives_fail

/-- Adds one term that is no sum. -/
def addRegLeaf (r : Reg) (subtract : Bool) : Value → Selection
  | .const k => addRegConst r (Value.offset subtract k)
  | .reg s => onRegs (if subtract then .sub else .add) r s
  | v => fail v.misuse

theorem computes_addRegLeaf {r : Reg} {minus : Bool} {v : Value} {is : List Instruction}
    (h : (addRegLeaf r minus v).Gives is) :
    Computes is 1 [r] fun s => accumulate minus (s.bits 1 [r]) (v.eval 1 s) := by
  cases v with
  | const k =>
    exact (computes_addRegConst h).congr fun s => accumulate_offset (.inl (by omega)) _ _
  | reg q =>
    refine computes_emit h fun s => ?_
    cases minus with
    | false =>
      refine ⟨_, rfl, ?_, fun q hq => set_regs_of_ne _ _ hq⟩
      simp [addByte, accumulate, Value.eval]
    | true =>
      refine ⟨_, rfl, ?_, fun q hq => set_regs_of_ne _ _ hq⟩
      simp [subByte, accumulate, Value.eval]
  | _ => exact absurd h not_gives_fail

theorem gives_addReg {r : Reg} {minus : Bool} {v : Value}
    {is : List Instruction} (h : (addReg r minus v).Gives is) :
    (sequence (v.leaves.map fun l => addRegLeaf r (minus ^^ l.1) l.2)).Gives is := by
  refine gives_leaves (P := fun _ => True) (fun _ _ _ _ _ _ => trivial) (addReg r) (addRegLeaf r)
    ?_ ?_ trivial h
  · intro minus v is ts _ h hts
    obtain ⟨hb, _⟩ := Value.foldedTerms_some hts
    rw [addReg] at h
    split at h
    · next hs => simp [hs, Value.isBinary] at hb
    · next hs => simp [hs, Value.isBinary] at hb
    · simpa [hts] using h
    · exact absurd h not_gives_fail
  · intro minus v is _ h hts
    rw [addReg] at h
    split at h
    · next hs => rwa [hs]
    · next hs => rwa [hs]
    · simp only [hts] at h
      exact absurd h not_gives_fail
    · exact absurd h not_gives_fail

theorem computes_addReg {r : Reg} {minus : Bool} {v : Value} (hv : v.isExpression)
    (hm : ¬ v.mentions r) {is : List Instruction} (h : (addReg r minus v).Gives is) :
    Computes is 1 [r] fun s => accumulate minus (s.bits 1 [r]) (v.eval 1 s) :=
  computes_leaves (by omega) hv (by simpa using hm) (fun _ _ _ _ _ hl => computes_addRegLeaf hl)
    (gives_addReg h)

theorem computes_shiftReg {m : Mnemonic} {r : Reg} {g : Byte → Byte}
    (hm : ∀ is, (onReg m r).Gives is → Computes is 1 [r] fun s => g (s.bits 1 [r]))
    {v : Value} {is : List Instruction} (h : (shiftReg m r v).Gives is) :
    Computes is 1 [r] fun s => g^[(v.eval 1 s).toNat] (s.bits 1 [r]) := by
  unfold shiftReg at h
  split at h
  · next k =>
    split at h
    · next hk =>
      rw [gives_warn h, hk]
      simpa [Value.eval] using computes_nil 1 [r]
    split at h
    · next hk =>
      have h1 : 1 ≤ k.toInt := Int32.le_iff_toInt_le.mp hk.1
      have h7 : k.toInt ≤ 7 := Int32.le_iff_toInt_le.mp hk.2
      have h0 : 0 ≤ k := Int32.le_iff_toInt_le.mpr (by simpa using by omega)
      have hlt : k.toNatClampNeg < 2 ^ (8 * 1) := by
        have : k.toNatClampNeg = k.toInt.toNat := rfl
        omega
      simp only [Value.eval, toNat_constBits h0 hlt]
      refine computes_iterate [onReg m r] (fun is hi => hm is ?_) (by simpa using h)
      exact gives_sequence_one.mp hi
    · exact absurd h not_gives_fail
  · exact absurd h not_gives_fail

theorem computes_lsl {r : Reg} {is : List Instruction} (h : (onReg .lsl r).Gives is) :
    Computes is 1 [r] fun s => s.bits 1 [r] <<< 1 := by
  refine computes_emit h fun s => ⟨_, rfl, ?_, fun q hq => set_regs_of_ne _ _ hq⟩
  apply BitVec.eq_of_toNat_eq
  simp only [addByte, set_regs_self, bits_single]
  simp [Nat.shiftLeft_eq]
  omega

theorem computes_lsr {r : Reg} {is : List Instruction} (h : (onReg .lsr r).Gives is) :
    Computes is 1 [r] fun s => s.bits 1 [r] >>> 1 := by
  refine computes_emit h fun s => ⟨_, rfl, ?_, fun q hq => set_regs_of_ne _ _ hq⟩
  apply BitVec.eq_of_toNat_eq
  simp only [shiftByte, set_regs_self, bits_single, BitVec.toNat_cons', BitVec.extractLsb'_toNat]
  simp [Nat.shiftRight_eq_div_pow]
  have := (s.regs r).isLt
  omega

/-- A register that is combined with an expression holds what the operator makes of the two. -/
theorem computes_updateReg {r : Reg} {op : ArithOp} {v : Value} (hv : v.isExpression)
    (hm : ¬ v.mentions r) {is : List Instruction} (h : (updateReg r op v).Gives is) :
    Computes is 1 [r] fun s => op.onWords (s.bits 1 [r]) (v.eval 1 s) := by
  obtain ⟨_, _, he⟩ := Value.simplify_spec hv
  have he (s : Cpu) := he 1 (by omega) s
  unfold updateReg at h
  split at h
  · exact computes_addReg hv hm h
  · exact computes_addReg hv hm h
  · next k hs =>
    refine computes_emit h fun s => ⟨_, rfl, ?_, fun q hq => set_regs_of_ne _ _ hq⟩
    simp only [setBits, set_regs_self, ofInt_low, ← he, hs]
    simp [Value.eval, ArithOp.onWords]
  · next k hs =>
    refine computes_emit h fun s => ⟨_, rfl, ?_, fun q hq => set_regs_of_ne _ _ hq⟩
    simp only [setBits, set_regs_self, ofInt_low, ← he, hs]
    simp [Value.eval, ArithOp.onWords]
  · next q hs =>
    refine computes_emit h fun s => ⟨_, rfl, ?_, fun q hq => set_regs_of_ne _ _ hq⟩
    simp [setBits, ← he, hs, Value.eval, ArithOp.onWords]
  · next q hs =>
    refine computes_emit h fun s => ⟨_, rfl, ?_, fun q hq => set_regs_of_ne _ _ hq⟩
    simp [setBits, ← he, hs, Value.eval, ArithOp.onWords]
  · next q hs =>
    refine computes_emit h fun s => ⟨_, rfl, ?_, fun q hq => set_regs_of_ne _ _ hq⟩
    simp [setBits, ← he, hs, Value.eval, ArithOp.onWords]
  · refine (computes_shiftReg (g := (· <<< 1)) (fun _ => computes_lsl) h).congr fun s => ?_
    rw [iterate_shiftLeft, he]
    rfl
  · refine (computes_shiftReg (g := (· >>> 1)) (fun _ => computes_lsr) h).congr fun s => ?_
    rw [iterate_shiftRight, he]
    rfl
  · exact absurd h not_gives_fail

end Selection

end Avr
