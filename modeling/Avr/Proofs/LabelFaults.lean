import Avr.Proofs.Emissions

namespace Avr

namespace Selection

/-- If there is no code, the reason is no label. -/
def SparesLabels (s : Selection) : Prop := ∀ name, s ≠ .error (.semantic (.labelDefined name))

@[simp] theorem sparesLabels_fail {e : SemanticError} :
    (fail e).SparesLabels ↔ ∀ name, e ≠ .labelDefined name := by
  simp [SparesLabels, fail]

@[simp] theorem sparesLabels_nothing : nothing.SparesLabels := by
  simp [SparesLabels, nothing]

@[simp] theorem sparesLabels_warn (w : Warning) : (warn w).SparesLabels := by
  simp [SparesLabels, warn]

@[simp] theorem sparesLabels_emit (m : Mnemonic) (operands : List Operand) :
    (emit m operands).SparesLabels := by
  intro name
  unfold emit
  split <;> simp

@[simp] theorem sparesLabels_onReg (m : Mnemonic) (r : Reg) : (onReg m r).SparesLabels :=
  sparesLabels_emit _ _

@[simp] theorem sparesLabels_onRegs (m : Mnemonic) (d s : Reg) : (onRegs m d s).SparesLabels :=
  sparesLabels_emit _ _

@[simp] theorem sparesLabels_onNumber (m : Mnemonic) (r : Reg) (k : Int32) :
    (onNumber m r k).SparesLabels :=
  sparesLabels_emit _ _

theorem sparesLabels_sequence {ss : List Selection} (h : ∀ s ∈ ss, s.SparesLabels) :
    (sequence ss).SparesLabels := by
  induction ss with
  | nil => exact sparesLabels_nothing
  | cons s ss ih =>
    have hs := h s List.mem_cons_self
    have hrest := ih fun t ht => h t (List.mem_cons_of_mem _ ht)
    intro name he
    cases hc : s with
    | error f =>
      rw [sequence, hc] at he
      exact hs name (hc.trans he)
    | ok c =>
      cases hd : sequence ss with
      | error f =>
        rw [sequence, hc, hd] at he
        exact hrest name (hd.trans he)
      | ok d =>
        rw [sequence, hc, hd] at he
        cases he

@[simp] theorem sparesLabels_sequence_nil : (sequence []).SparesLabels := sparesLabels_nothing

@[simp] theorem sparesLabels_sequence_cons {s : Selection} {ss : List Selection}
    (hs : s.SparesLabels) (hss : ∀ t ∈ ss, t.SparesLabels) : (sequence (s :: ss)).SparesLabels :=
  sparesLabels_sequence (by simpa using ⟨hs, hss⟩)

@[simp] theorem sparesLabels_sequence_map {f : α → Selection} {xs : List α}
    (h : ∀ x ∈ xs, (f x).SparesLabels) : (sequence (xs.map f)).SparesLabels :=
  sparesLabels_sequence (by simpa using h)

@[simp] theorem sparesLabels_ite {c : Prop} [Decidable c] {s t : Selection} :
    (if c then s else t).SparesLabels ↔ (c → s.SparesLabels) ∧ (¬ c → t.SparesLabels) := by
  split <;> simp_all

section Update

theorem sparesLabels_addRegConst (r : Reg) (k : Int32) : (addRegConst r k).SparesLabels := by
  simp [addRegConst]

theorem sparesLabels_addReg (r : Reg) (minus : Bool) (v : Value) :
    (addReg r minus v).SparesLabels := by
  induction hn : v.weight using Nat.strongRecOn generalizing v minus with
  | _ n ih =>
    subst hn
    rw [addReg]
    split
    · exact sparesLabels_addRegConst r _
    · simp
    · split
      · exact sparesLabels_sequence_map fun t _ => ih _ t.2 _ _ rfl
      · simp
    · simp

theorem sparesLabels_shiftReg (m : Mnemonic) (r : Reg) (v : Value) :
    (shiftReg m r v).SparesLabels := by
  unfold shiftReg
  split
  · simp only [sparesLabels_ite]
    refine ⟨by simp, fun _ => ⟨fun _ => sparesLabels_sequence fun s hs => ?_, by simp⟩⟩
    rw [List.eq_of_mem_replicate hs]
    simp
  · simp

theorem sparesLabels_updateReg (r : Reg) (op : ArithOp) (v : Value) :
    (updateReg r op v).SparesLabels := by
  unfold updateReg
  split <;> simp [sparesLabels_addReg, sparesLabels_shiftReg]

theorem sparesLabels_subtractBytes (rs : List Reg) (byte : Nat → Operand) :
    (subtractBytes rs byte).SparesLabels := by
  simp [subtractBytes]

theorem sparesLabels_addGroupConst (rs : List Reg) (k : Int32) :
    (addGroupConst rs k).SparesLabels := by
  unfold addGroupConst
  split
  · simp
  · split <;> simp [sparesLabels_subtractBytes]

theorem sparesLabels_addGroupAddress (rs : List Reg) (minus : Bool) (e : AddrExpr) :
    (addGroupAddress rs minus e).SparesLabels := by
  unfold addGroupAddress
  split
  · exact sparesLabels_addGroupConst rs _
  · exact sparesLabels_subtractBytes rs _

theorem sparesLabels_addGroupExternal (rs : List Reg) (minus : Bool) (e : ExternalRef) :
    (addGroupExternal rs minus e).SparesLabels := by
  simp only [addGroupExternal]
  split <;> simp

theorem sparesLabels_addGroups (minus : Bool) (rs ss : List Reg) :
    (addGroups minus rs ss).SparesLabels := by
  unfold addGroups
  split
  · simp
  · refine sparesLabels_sequence_map fun x _ => ?_
    obtain ⟨⟨n, r⟩, s⟩ := x
    dsimp only
    split <;> simp

theorem sparesLabels_addGroup (rs : List Reg) (minus : Bool) (v : Value) :
    (addGroup rs minus v).SparesLabels := by
  induction hn : v.weight using Nat.strongRecOn generalizing v minus with
  | _ n ih =>
    subst hn
    rw [addGroup]
    split
    · exact sparesLabels_addGroupConst rs _
    · exact sparesLabels_addGroups minus rs _
    · simp
    · split
      · exact sparesLabels_addGroupAddress rs minus _
      · exact sparesLabels_addGroupExternal rs minus _
      · split
        · split
          · exact sparesLabels_sequence_map fun t _ => ih _ t.2 _ _ rfl
          · simp
        · simp

theorem sparesLabels_shiftOnce {first carry : Mnemonic} {rs : List Reg} :
    ∀ s ∈ shiftOnce first carry rs, s.SparesLabels := by
  cases rs <;> simp [shiftOnce]

theorem sparesLabels_shiftGroup (left : Bool) (rs : List Reg) (v : Value) :
    (shiftGroup left rs v).SparesLabels := by
  unfold shiftGroup
  split
  · simp only [sparesLabels_ite]
    refine ⟨by simp, fun _ => ⟨by simp, fun _ => sparesLabels_sequence fun s hs => ?_⟩⟩
    obtain ⟨once, honce, hs⟩ := List.mem_flatten.mp hs
    rw [List.eq_of_mem_replicate honce] at hs
    split at hs <;> exact sparesLabels_shiftOnce s hs
  · simp

theorem sparesLabels_updateGroup (rs : List Reg) (op : ArithOp) (v : Value) :
    (updateGroup rs op v).SparesLabels := by
  unfold updateGroup
  split <;> simp [sparesLabels_addGroup, sparesLabels_shiftGroup, maskGroup, pairwise]

theorem sparesLabels_update (op : ArithOp) (target v : Value) :
    (update op target v).SparesLabels := by
  unfold update
  split <;> simp [sparesLabels_updateReg, sparesLabels_updateGroup]

@[simp] theorem sparesLabels_step (op : StepOp) (target : Value) :
    (step op target).SparesLabels :=
  sparesLabels_update _ _ _

end Update

section Assign

theorem sparesLabels_loadConst (r : Reg) (k : Int32) : (loadConst r k).SparesLabels := by
  simp [loadConst]

theorem sparesLabels_loadFlash (r : Reg) (increment : Bool) :
    (loadFlash r increment).SparesLabels := by
  cases increment <;> simp [loadFlash]

theorem sparesLabels_copyReg (d s : Reg) : (copyReg d s).SparesLabels := by
  simp [copyReg]

theorem sparesLabels_loadComplement (m : Mnemonic) (d : Reg) (v : Value) :
    (loadComplement m d v).SparesLabels := by
  unfold loadComplement
  split <;> simp [sparesLabels_copyReg]

theorem sparesLabels_load (d : Reg) (v : Value) : (load d v).SparesLabels := by
  fun_induction load d v <;>
    simp_all [sparesLabels_loadConst, sparesLabels_copyReg, sparesLabels_loadFlash,
      sparesLabels_loadComplement, readIo, loadCell]

theorem sparesLabels_computeReg (d : Reg) (chain : Value.Chain) :
    (computeReg d chain).SparesLabels := by
  unfold computeReg
  split
  · simp
  · split
    · simp
    · refine sparesLabels_sequence_cons (sparesLabels_load d _) fun t ht => ?_
      obtain ⟨x, _, rfl⟩ := List.mem_map.mp ht
      exact sparesLabels_update _ _ _

theorem sparesLabels_assignReg (d : Reg) (v : Value) : (assignReg d v).SparesLabels := by
  fun_induction assignReg d v <;> simp_all [sparesLabels_computeReg, sparesLabels_load]

theorem sparesLabels_loadGroupConst (dest : List Reg) (k : Int32) :
    (loadGroupConst dest k).SparesLabels := by
  simp [loadGroupConst]

theorem sparesLabels_loadAddress (dest : List Reg) (e : AddrExpr) :
    (loadAddress dest e).SparesLabels := by
  unfold loadAddress
  split
  · exact sparesLabels_loadGroupConst dest _
  · split <;> simp

theorem sparesLabels_loadExternalAddress (dest : List Reg) (e : ExternalRef) :
    (loadExternalAddress dest e).SparesLabels := by
  unfold loadExternalAddress
  split <;> simp

theorem sparesLabels_moveGroup (dest source : List Reg) : (moveGroup dest source).SparesLabels := by
  have hselect (m : Move) : m.select.SparesLabels := by
    cases m <;> simp [Move.select]
  unfold moveGroup
  split
  · simp
  · split <;> simp [hselect]

theorem sparesLabels_assignGroup (dest : List Reg) (v : Value) :
    (assignGroup dest v).SparesLabels := by
  induction hn : v.weight using Nat.strongRecOn generalizing v with
  | _ n ih =>
    subst hn
    cases v with
    | binary op a b =>
      rw [assignGroup]
      dsimp only
      split
      · exact sparesLabels_loadAddress dest _
      · exact sparesLabels_loadExternalAddress dest _
      · simp
      · next chain hlt _ _ _ =>
        split
        · simp
        · refine sparesLabels_sequence_cons (ih _ hlt _ rfl) fun t ht => ?_
          obtain ⟨x, _, rfl⟩ := List.mem_map.mp ht
          exact sparesLabels_update _ _ _
    | unary op v =>
      cases op with
      | step op =>
        rw [assignGroup]
        simp [ih v.weight (by simp) v rfl]
      | _ =>
        rw [assignGroup]
        · simp
        all_goals simp
    | suffix op v =>
      rw [assignGroup]
      simp [ih v.weight (by simp) v rfl]
    | signed v =>
      rw [assignGroup]
      exact ih v.weight (by simp) v rfl
    | const | group | var | io | external | label | symbol | reg =>
      rw [assignGroup]
      simp [sparesLabels_loadGroupConst, sparesLabels_moveGroup, sparesLabels_loadAddress,
        sparesLabels_loadExternalAddress, loadCell, readIo]
    | _ =>
      rw [assignGroup]
      · simp
      all_goals simp

theorem sparesLabels_storeReg (target : Value) (s : Reg) : (storeReg target s).SparesLabels := by
  unfold storeReg
  split <;> simp [writeIo, storeCell]

theorem sparesLabels_storeGroup (target : Value) (source : List Reg) :
    (storeGroup target source).SparesLabels := by
  unfold storeGroup
  split <;> simp [writeIo, storeCell]

theorem sparesLabels_store (target v : Value) : (store target v).SparesLabels := by
  fun_induction store target v <;> simp_all [sparesLabels_storeReg, sparesLabels_storeGroup]

theorem sparesLabels_assignSingle (target v : Value) : (assignSingle target v).SparesLabels := by
  have hbit (r : Reg) (bit : Fin 8) : (assignRegBit r bit v).SparesLabels := by
    unfold assignRegBit
    split <;> simp
  have hstatus (bit : Nat) : (assignStatusBit bit v).SparesLabels := by
    unfold assignStatusBit
    split <;> simp
  have hio (address bit : Nat) : (assignIoBit address bit v).SparesLabels := by
    simp only [assignIoBit]
    split
    · simp
    · split <;> simp [copyToIoBit]
  unfold assignSingle
  split <;> simp [sparesLabels_assignReg, sparesLabels_assignGroup, sparesLabels_store, hbit,
    hstatus, hio]

@[simp] theorem sparesLabels_assign (target v : Value) : (assign target v).SparesLabels := by
  fun_induction assign target v <;> simp_all [sparesLabels_update, sparesLabels_assignSingle]

@[simp] theorem sparesLabels_assignBy (op : AssignOp) (target v : Value) :
    (assignBy op target v).SparesLabels := by
  cases op <;> simp [assignBy, sparesLabels_update]

end Assign

section Branch

@[simp] theorem sparesLabels_jumpTo (m : Mnemonic) (target : LabelRef) :
    (jumpTo m target).SparesLabels :=
  sparesLabels_emit _ _

theorem sparesLabels_branch (m : Option Mnemonic) (target : LabelRef) :
    (branch m target).SparesLabels := by
  cases m <;> simp [branch]

theorem sparesLabels_compareRegs (op : RelOp) (ls rs : List Reg) (signed : Bool)
    (target : LabelRef) : (compareRegs op ls rs signed target).SparesLabels := by
  unfold compareRegs
  split <;> simp [compareBytes, sparesLabels_branch]

theorem sparesLabels_compareConst (op : RelOp) (r : Reg) (k : Int32) (signed : Bool)
    (target : LabelRef) : (compareConst op r k signed target).SparesLabels := by
  simp [compareConst, sparesLabels_branch]

theorem sparesLabels_compare (op : RelOp) (left right : Value) (signed : Bool)
    (target : LabelRef) : (compare op left right signed target).SparesLabels := by
  unfold compare
  split <;> simp [sparesLabels_compareConst, sparesLabels_compareRegs]

@[simp] theorem sparesLabels_jumpIf (truth signed : Bool) (target : LabelRef) (v : Value) :
    (jumpIf truth signed target v).SparesLabels := by
  fun_induction jumpIf truth signed target v <;> simp_all [sparesLabels_compare, skipJump]

end Branch

end Selection

theorem Test.sparesLabels_jumps {truth : Bool} {v : Value} {target : LabelRef} {stem : String}
    {code : Selection} (h : .jump code ∈ jumps truth v target stem) : code.SparesLabels := by
  fun_induction jumps truth v target stem with
  | case1 | case2 | case4 | case5 =>
    simp_all
    grind
  | case3 | case6 | case7 => simp_all

theorem Counter.sparesLabels_update (start : LabelRef) (c : Counter) :
    (c.update start).SparesLabels := by
  cases c <;> simp [update]

end Avr
