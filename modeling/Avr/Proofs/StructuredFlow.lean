import Avr.Proofs.Simulation
import Avr.Proofs.SkipIdiom

namespace Avr

namespace Scope

open Lowering

variable (s : Scope)

/-- The instruction that is written, its operands being resolved. It goes straight on, and so it is
the same at every address. -/
def instruction? (aliases : Aliases) (l : Layout) (linker : Bool) (i : AsmInstruction) :
    Option Instruction := do
  let m ← Mnemonic.ofName? i.mnemonic.value
  let slots := (m.formOfLength? i.operands.length).getD []
  let (operands, _) ← (s.operands slots none i.operands { aliases }).outcome.toOption
  let (resolved, _) ← (l.resolveInstruction linker 0 ⟨m, operands, s.comment⟩).toOption
  return resolved

end Scope

theorem Mnemonic.isJump_of_isStraight {m : Mnemonic} (h : m.isStraight) :
    ∀ slots ∈ m.forms, ∀ slot ∈ slots, slot.isJump = false := by
  cases m <;> first | cases h; done | decide

namespace Layout

theorem resolveOperands_of_not_isJump {l : Layout} {linker : Bool} {slots : List Slot}
    (h : ∀ slot ∈ slots, slot.isJump = false) (here there : Nat) (operands : List Operand) :
    l.resolveOperands linker here slots operands =
      l.resolveOperands linker there slots operands := by
  induction slots generalizing operands with
  | nil => rfl
  | cons slot slots ih =>
    cases operands with
    | nil => rfl
    | cons o os =>
      have hslot : slot.isRelative = false := by
        have := h slot (by simp)
        cases slot <;> first | rfl | cases this
      have ho : l.resolveOperand linker here slot o = l.resolveOperand linker there slot o := by
        cases o <;> simp [resolveOperand, reference, hslot]
      rw [resolveOperands, resolveOperands, ho, ih fun slot hs => h slot (by simp [hs])]

/-- What goes straight on means the same everywhere. -/
theorem resolveInstruction_of_isStraight {l : Layout} {linker : Bool} {i : Instruction}
    (h : i.mnemonic.isStraight) (here there : Nat) :
    l.resolveInstruction linker here i = l.resolveInstruction linker there i := by
  unfold resolveInstruction
  cases hform : i.mnemonic.form i.operands with
  | error e => simp only [Except.mapError, bind, Except.bind]
  | ok slots =>
    obtain ⟨hmem, -⟩ := Mnemonic.formOfLength_some (Mnemonic.form_ok hform).1
    simp only [Except.mapError, bind, Except.bind]
    rw [resolveOperands_of_not_isJump (Mnemonic.isJump_of_isStraight h slots hmem) here there]

end Layout

namespace Scope

/-- What conditions and written instructions stand for in a scope, once labels are placed. -/
def meaning (s : Scope) (aliases : Aliases) (l : Layout) (linker : Bool) (effect : Effect μ) :
    Meaning μ where
  condition := (s.names aliases).condition?
  instruction := s.instruction? aliases l linker
  effect := effect

theorem operands_loop (s : Scope) (labels : Option LoopLabels) (slots : List Slot)
    (last : Option IoRegister) (es : List (Located Expr)) :
    { s with loop := labels }.operands slots last es = s.operands slots last es := by
  induction es generalizing slots last with
  | nil => rfl
  | cons e es ih =>
    simp only [operands, ih]
    rfl

theorem instruction_loop (s : Scope) (labels : Option LoopLabels) (aliases : Aliases)
    (l : Layout) (linker : Bool) :
    { s with loop := labels }.instruction? aliases l linker = s.instruction? aliases l linker := by
  funext i
  simp only [instruction?, operands_loop]

/-- The loop around makes no difference. -/
@[simp] theorem meaning_loop (s : Scope) (labels : Option LoopLabels) (aliases : Aliases)
    (l : Layout) (linker : Bool) (effect : Effect μ) :
    { s with loop := labels }.meaning aliases l linker effect =
      s.meaning aliases l linker effect := by
  simp only [meaning, instruction_loop]
  rfl

end Scope

namespace Scope

open Trace

variable {s : Scope} {l : Location} {p q : Progress} {es : List Emission}

theorem yields_goto {target : LabelRef} (h : (s.goto l target p).Yields es ((), q)) :
    p = q ∧ es = [.instruction ⟨l, .rjmp, [.label target], s.comment⟩] := by
  obtain ⟨⟨is, his, rfl⟩, rfl⟩ := yields_place.mp h
  exact ⟨rfl, by rw [Selection.gives_emit his]; rfl⟩

theorem yields_define {name : String}
    (h : ((liftM (Trace.define l name) : Lowering Unit) p).Yields es ((), q)) :
    p = q ∧ es = [.label ⟨l, name⟩] := by
  rw [yields_lift, Trace.yields_define] at h
  exact ⟨h.2, h.1⟩

/-- An instruction that goes straight on is all there is. -/
theorem yields_straight {i : AsmInstruction} (hi : i.isStraight)
    (h : (discard (s.asm i) p).Yields es ((), q)) :
    ∃ mnemonic operands, Mnemonic.ofName? i.mnemonic.value = some mnemonic ∧ mnemonic.isStraight ∧
      q = p ∧ es = [.instruction ⟨i.mnemonic.location, mnemonic, operands, s.comment⟩] ∧
      ∀ r : Progress, r.aliases = p.aliases →
        (s.operands ((mnemonic.formOfLength? i.operands.length).getD []) none i.operands
          r).outcome = .ok (operands, r) := by
  rw [yields_discard] at h
  obtain ⟨size, h⟩ := h
  obtain ⟨mnemonic, operands, xs, hname, hoperands, rfl⟩ := yields_asm h
  have hstraight : mnemonic.isStraight := by simpa [AsmInstruction.isStraight, hname] using hi
  have hslots : ∀ slot ∈ (mnemonic.formOfLength? i.operands.length).getD [],
      slot.isJump = false := by
    cases hform : mnemonic.formOfLength? i.operands.length with
    | none => simp
    | some slots =>
      exact Mnemonic.isJump_of_isStraight hstraight slots (Mnemonic.formOfLength_some hform).1
  obtain ⟨rfl, rfl, hread⟩ := s.reads_operands hslots none i.operands _ _ _ _ hoperands
  exact ⟨mnemonic, operands, hname, hstraight, rfl, rfl, fun r hr => (hread r hr).2⟩

theorem yields_loopTarget {labels : LoopLabels} {continues : Bool} {target : LabelRef}
    (hloop : s.loop = some labels) (h : (s.loopTarget l continues p).Yields es (target, q)) :
    p = q ∧ es = [] ∧ target = .plain (if continues then labels.next else labels.stop) := by
  simp only [loopTarget, hloop] at h
  obtain ⟨rfl, rfl, rfl⟩ := yields_pure_state.mp h
  exact ⟨rfl, rfl, rfl⟩

end Scope

/-- The test of a skip is just that the condition fails, and it leaves the flags. -/
theorem Stmt.skip_spec {st : Stmt} {v : Value} {mnemonic : Mnemonic} {x y : Operand}
    (hv : v.isCondition) (h : st.skip? v = some (mnemonic, x, y)) (c : Option String) :
    ∃ test, Instruction.control ⟨mnemonic, [x, y], c⟩ = .skip test ∧
      (∀ o ∈ [x, y], o.isSymbolic = false) ∧
      ∀ s : Cpu, v.ask true s = (!test s, s.status) := by
  have hnumber (bit : Fin 8) : (Int32.ofNat bit).toNatClampNeg = bit := by
    rw [Int32.toNatClampNeg_ofNat_of_lt (by omega)]
  unfold skip? at h
  split at h
  · next r bit =>
    simp only [skip?.skipReg, Option.ite_none_right_eq_some, Option.some.injEq] at h
    obtain ⟨-, h⟩ := h
    cases h
    exact ⟨_, rfl, by simp [Operand.isSymbolic], fun s => by simp [Value.ask, hnumber]⟩
  · next r bit =>
    simp only [skip?.skipReg, Option.ite_none_right_eq_some, Option.some.injEq] at h
    obtain ⟨-, h⟩ := h
    cases h
    exact ⟨_, rfl, by simp [Operand.isSymbolic], fun s => by simp [Value.ask, hnumber]⟩
  · cases hv
  · cases hv
  · next l r =>
    simp only [Option.ite_none_right_eq_some, Option.some.injEq] at h
    obtain ⟨-, h⟩ := h
    cases h
    refine ⟨_, rfl, by simp [Operand.isSymbolic], fun s => ?_⟩
    simp [Value.ask, Value.askComparison, Value.comparison?, Cpu.compareFlags, Cpu.compares,
      RelOp.relates, s.quantity_inj, Cpu.number, BitVec.toNat_eq]
  · cases h

namespace Flash

/-- The labels of the loop around, if there is one, are at these places. -/
def Loops (m : Flash μ) (loop : Option LoopLabels) (inLoop : Bool) (left again : Nat) : Prop :=
  inLoop → ∃ labels, loop = some labels ∧ m.Target labels.stop left ∧ m.Target labels.next again

/-- Wherever the code lies, it simulates the statement, and it adds no alias. -/
def Realizes (m : Flash μ) (s : Scope) (inLoop : Bool) (aliases : Aliases) (code : Lowering Unit)
    (e : Execution μ) : Prop :=
  ∀ p q es a left again, p.aliases = aliases → (code p).Yields es ((), q) → m.Loaded a es →
    m.Loops s.loop inLoop left again →
    q.aliases = aliases ∧
      m.Simulates e a (Exit.address (a + Emission.sizes es) left again)

namespace Realizes

open Trace

variable {m : Flash μ} {s : Scope} {inLoop : Bool} {aliases : Aliases} {e f : Execution μ}
  {code code' : Lowering Unit}

theorem nothing : m.Realizes s inLoop aliases (pure ()) (.exit .done) := by
  intro p q es a left again hp h hload hloop
  obtain ⟨rfl, -, rfl⟩ := yields_pure_state.mp h
  exact ⟨hp, .nothing rfl⟩

theorem sequence (he : m.Realizes s inLoop aliases code e)
    (hf : m.Realizes s inLoop aliases code' f) :
    m.Realizes s inLoop aliases (do code; code') (e.sequence f) := by
  intro p q es a left again hp h hload hloop
  rw [yields_bind_state] at h
  obtain ⟨_, r, xs, ys, hxs, hys, rfl⟩ := h
  obtain ⟨hload, hload'⟩ := loaded_append.mp hload
  obtain ⟨hr, hsim⟩ := he p r xs a left again hp hxs hload hloop
  obtain ⟨hq, hsim'⟩ := hf r q ys _ left again hr hys hload' hloop
  rw [Emission.sizes_append, ← Nat.add_assoc]
  refine ⟨hq, hsim.sequence hsim' rfl ?_⟩
  intro x hx
  cases x with
  | done => exact (hx rfl).elim
  | left => rfl
  | again => rfl

/-- An instruction that goes straight on. -/
theorem asm {i : AsmInstruction} (hi : i.isStraight) :
    m.Realizes s inLoop aliases (discard (s.asm i)) fun u x t => x = .done ∧
      ∃ r, (s.meaning aliases m.layout m.linker m.effect).instruction i = some r ∧
        r.perform m.effect u = some t := by
  intro p q es a left again hp h hload hloop
  obtain ⟨mnemonic, operands, hname, hstraight, rfl, rfl, hread⟩ := Scope.yields_straight hi h
  obtain ⟨ha, ⟨r, bytes, hr, hfetch⟩, -⟩ := loaded_instruction.mp hload
  have hinstruction : s.instruction? aliases m.layout m.linker i = some r := by
    rw [Layout.resolveInstruction_of_isStraight hstraight a 0] at hr
    simp [Scope.instruction?, hname, hread { aliases } hp.symm, hr, Except.toOption]
  have hmeaning : (fun u x t => x = Exit.done ∧
      ∃ r, (s.meaning aliases m.layout m.linker m.effect).instruction i = some r ∧
        r.perform m.effect u = some t) =
      fun u x t => x = .done ∧ r.perform m.effect u = some t := by
    simp [Scope.meaning, hinstruction]
  rw [hmeaning]
  refine ⟨hp, .straight (by simp [hfetch]) fun u => ?_⟩
  rw [step_straight hr hfetch hstraight]
  simp [Exit.address]

/-- The end that `break` or `continue` makes. -/
def loopExit (continues : Bool) : Exit := if continues then .again else .left

theorem target_loopExit {labels : LoopLabels} {left again d : Nat}
    (hleft : m.Target labels.stop left) (hagain : m.Target labels.next again) (continues : Bool) :
    m.Target (if continues then labels.next else labels.stop)
      (Exit.address d left again (loopExit continues)) := by
  cases continues with
  | true => exact hagain
  | false => exact hleft

theorem exit {l : Location} (continues : Bool) (hin : inLoop) :
    m.Realizes s inLoop aliases (do s.goto l (← s.loopTarget l continues))
      (.exit (loopExit continues)) := by
  intro p q es a left again hp h hload hloop
  obtain ⟨labels, hlabels, hleft, hagain⟩ := hloop hin
  rw [yields_bind_state] at h
  obtain ⟨target, r, xs, ys, htarget, hgoto, rfl⟩ := h
  obtain ⟨rfl, rfl, rfl⟩ := Scope.yields_loopTarget hlabels htarget
  obtain ⟨rfl, rfl⟩ := Scope.yields_goto hgoto
  obtain ⟨ha, hjump, -⟩ := loaded_instruction.mp hload
  exact ⟨hp, .exit fun u => step_rjmp ha hjump (target_loopExit hleft hagain continues)⟩

/-- A condition whose jump is `break` or `continue`. -/
theorem branch_exit {l yl : Location} {v : Value} {stem : String} (continues : Bool) (hin : inLoop)
    (hv : v.isCondition) (hf : m.Realizes s inLoop aliases code f) :
    m.Realizes s inLoop aliases
      (do s.gotoIf l true v (← s.loopTarget yl continues) stem; code)
      (.choice true v (.exit (loopExit continues)) f) := by
  intro p q es a left again hp h hload hloop
  obtain ⟨labels, hlabels, hleft, hagain⟩ := hloop hin
  simp only [yields_bind_state] at h
  obtain ⟨target, _, _, _, htarget, ⟨_, r, xs, ys, hgoto, hcode, rfl⟩, rfl⟩ := h
  obtain ⟨rfl, rfl, rfl⟩ := Scope.yields_loopTarget hlabels htarget
  rw [List.nil_append] at hload ⊢
  obtain ⟨hload, hload'⟩ := loaded_append.mp hload
  have htarget := target_loopExit (d := a + Emission.sizes (xs ++ ys)) hleft hagain continues
  obtain ⟨rfl, hbranch⟩ := Scope.branches_gotoIf hv hgoto hload htarget
  obtain ⟨hq, hsim⟩ := hf _ q ys _ left again hp hcode hload' hloop
  rw [Nat.add_assoc, ← Emission.sizes_append] at hsim
  exact ⟨hq, .branch hbranch (follows_exit rfl) hsim.follows⟩

/-- A condition with one part, past which there is a jump if it is not wanted. -/
theorem branch_one {l : Location} {v : Value} {truth : Bool} {stop stem : String}
    (hv : v.isCondition) (he : m.Realizes s inLoop aliases code e) :
    m.Realizes s inLoop aliases
      (do s.gotoIf l truth v (.plain stop) stem; code; Trace.define l stop)
      (if truth then .choice truth v (.exit .done) e else .choice truth v e (.exit .done)) := by
  intro p q es a left again hp h hload hloop
  simp only [yields_bind_state] at h
  obtain ⟨_, _, xs, _, hgoto, ⟨_, _, ys, _, hcode, hstop, rfl⟩, rfl⟩ := h
  obtain ⟨rfl, rfl⟩ := Scope.yields_define hstop
  rw [← List.append_assoc] at hload ⊢
  obtain ⟨hload, hload', hlabel⟩ := loaded_out hload
  obtain ⟨rfl, hbranch⟩ := Scope.branches_gotoIf hv hgoto hload hlabel
  obtain ⟨hq, hsim⟩ := he _ _ ys _ left again hp hcode hload' hloop
  simp only [Emission.sizes_append, Emission.sizes_label, Emission.sizes_nil, Nat.add_zero,
    ← Nat.add_assoc]
  refine ⟨hq, ?_⟩
  cases truth with
  | true => exact .branch hbranch (follows_exit rfl) hsim.follows
  | false => exact .branch hbranch hsim.follows (follows_exit rfl)

/-- A condition with two parts. -/
theorem branch_two {l : Location} {v : Value} {other stop stem : String} (hv : v.isCondition)
    (he : m.Realizes s inLoop aliases code e) (hf : m.Realizes s inLoop aliases code' f) :
    m.Realizes s inLoop aliases
      (do
        s.gotoIf l false v (.plain other) stem
        code
        s.goto l (.plain stop)
        Trace.define l other
        code'
        Trace.define l stop)
      (.choice false v e f) := by
  intro p q es a left again hp h hload hloop
  simp only [yields_bind_state] at h
  obtain ⟨_, _, xs, _, hgoto, ⟨_, _, ys, _, hcode, ⟨_, _, _, _, hskip, ⟨_, _, _, _, hother,
    ⟨_, _, zs, _, hcode', hstop, rfl⟩, rfl⟩, rfl⟩, rfl⟩, rfl⟩ := h
  obtain ⟨rfl, rfl⟩ := Scope.yields_goto hskip
  obtain ⟨rfl, rfl⟩ := Scope.yields_define hother
  obtain ⟨rfl, rfl⟩ := Scope.yields_define hstop
  simp only [loaded_append, loaded_label, loaded_instruction, Emission.sizes_append,
    Emission.sizes_label, Emission.sizes_instruction, Emission.sizes_nil, Nat.add_zero,
    Nat.zero_add, ← Nat.add_assoc] at hload ⊢
  obtain ⟨hload, hload', ⟨hb, hjump, -⟩, ⟨hother, -⟩, hload'', hstop, -⟩ := hload
  obtain ⟨rfl, hbranch⟩ := Scope.branches_gotoIf hv hgoto hload hother
  obtain ⟨hr, hsim⟩ := he _ _ ys _ left again hp hcode hload' hloop
  obtain ⟨hq, hsim'⟩ := hf _ _ zs _ left again hr hcode' hload'' hloop
  refine ⟨hq, .branch hbranch ?_ ?_⟩
  · refine (hsim.redirect ?_).follows
    intro u x t _
    cases x with
    | done => exact .inr fun u => step_rjmp hb hjump hstop
    | left => exact .inl rfl
    | again => exact .inl rfl
  · exact hsim'.follows

/-- A loop that only its body leaves. -/
theorem loop {l : Location} {start stop : String}
    (he : m.Realizes { s with loop := some ⟨start, stop⟩ } true aliases code e) :
    m.Realizes s inLoop aliases
      (do
        Trace.define l start
        code
        s.goto l (.plain start)
        Trace.define l stop)
      fun u x t => x = .done ∧ Repeats e (true, ·) u t := by
  intro p q es a left again hp h hload hloop
  simp only [yields_bind_state] at h
  obtain ⟨_, _, _, _, hstart, ⟨_, _, xs, _, hcode, ⟨_, _, _, _, hback, hstop, rfl⟩, rfl⟩, rfl⟩ := h
  obtain ⟨rfl, rfl⟩ := Scope.yields_define hstart
  obtain ⟨rfl, rfl⟩ := Scope.yields_goto hback
  obtain ⟨rfl, rfl⟩ := Scope.yields_define hstop
  simp only [loaded_append, loaded_label, loaded_instruction, Emission.sizes_append,
    Emission.sizes_label, Emission.sizes_instruction, Emission.sizes_nil, Nat.add_zero,
    Nat.zero_add, ← Nat.add_assoc] at hload ⊢
  obtain ⟨⟨hstart, -⟩, hload, ⟨hb, hjump, -⟩, hstop, -⟩ := hload
  obtain ⟨hq, hsim⟩ := he _ _ xs a _ a hp hcode hload fun _ => ⟨_, rfl, hstop, hstart⟩
  refine ⟨hq, hsim.repeats rfl ?_ rfl⟩
  intro x hx u
  cases x with
  | done => exact ⟨1, fun _ => Nat.one_pos, Machine.run_one (step_rjmp hb hjump hstart)⟩
  | left => exact (hx rfl).elim
  | again =>
    refine ⟨0, ?_, rfl⟩
    intro hdone
    cases hdone

/-- The end of a loop that goes on while a condition holds. -/
theorem yields_while {l : Location} {start next stop stem : String} {continues : Bool}
    {condition : Located Expr} {p q : Progress} {es : List Emission}
    (h : ((do
        if continues then Trace.define l next
        let v ← s.resolve condition
        s.gotoIf l true v (.plain start) stem
        Trace.define l stop : Lowering Unit) p).Yields es ((), q)) :
    ∃ v xs, ((s.names p.aliases).resolve condition).outcome = .ok v ∧
      (s.gotoIf l true v (.plain start) stem p).Yields xs ((), q) ∧
      es = (if continues then [.label ⟨l, next⟩] else []) ++ (xs ++ [.label ⟨l, stop⟩]) := by
  cases continues with
  | true =>
    simp only [if_true, yields_bind_state, Scope.yields_resolve] at h
    obtain ⟨_, _, _, _, hnext, ⟨v, _, _, _, ⟨rfl, hv, rfl⟩, ⟨_, _, xs, _, hgoto, hstop, rfl⟩, rfl⟩,
      rfl⟩ := h
    obtain ⟨rfl, rfl⟩ := Scope.yields_define hnext
    obtain ⟨rfl, rfl⟩ := Scope.yields_define hstop
    exact ⟨v, xs, hv, hgoto, rfl⟩
  | false =>
    simp only [Bool.false_eq_true, if_false, yields_bind_state, Scope.yields_resolve] at h
    obtain ⟨v, _, _, _, ⟨rfl, hv, rfl⟩, ⟨_, _, xs, _, hgoto, hstop, rfl⟩, rfl⟩ := h
    obtain ⟨rfl, rfl⟩ := Scope.yields_define hstop
    exact ⟨v, xs, hv, hgoto, rfl⟩

/-- A loop that goes on while a condition holds. -/
theorem doWhile {l : Location} {start next stop stem : String} {continues : Bool}
    {condition : Located Expr}
    (hcondition : ∀ v, ((s.names aliases).resolve condition).outcome = .ok v → v.isCondition)
    (he : m.Realizes { s with loop := some ⟨next, stop⟩ } true aliases code e)
    (hcontinues : ∀ u t, e u .again t → continues) (hsame : continues = false → next = start) :
    m.Realizes s inLoop aliases
      (do
        Trace.define l start
        code
        if continues then Trace.define l next
        let v ← s.resolve condition
        s.gotoIf l true v (.plain start) stem
        Trace.define l stop)
      fun u x t => x = .done ∧
        ∃ v, (s.meaning aliases m.layout m.linker m.effect).condition condition = some v ∧
          Repeats e (·.answer true v) u t := by
  intro p q es a left again hp h hload hloop
  rw [yields_bind_state] at h
  obtain ⟨_, _, _, _, hstart, h, rfl⟩ := h
  rw [yields_bind_state] at h
  obtain ⟨_, r, xs, _, hcode, hwhile, rfl⟩ := h
  obtain ⟨rfl, rfl⟩ := Scope.yields_define hstart
  obtain ⟨v, ys, hv, hgoto, rfl⟩ := yields_while hwhile
  have hsize : Emission.sizes (if continues then [.label ⟨l, next⟩] else []) = 0 := by
    cases continues <;> rfl
  simp only [loaded_append, loaded_label, Emission.sizes_append, Emission.sizes_label,
    Emission.sizes_nil, hsize, Nat.add_zero, Nat.zero_add, ← Nat.add_assoc] at hload ⊢
  obtain ⟨⟨hstart, -⟩, hload, hnext, hload', hstop, -⟩ := hload
  have hagain : m.Target next (if continues then a + Emission.sizes xs else a) := by
    cases continues with
    | true => exact (loaded_label.mp hnext).1
    | false =>
      rw [hsame rfl]
      exact hstart
  obtain ⟨hr, hsim⟩ := he _ _ xs a _ _ hp hcode hload fun _ => ⟨_, rfl, hstop, hagain⟩
  rw [hr] at hv
  obtain ⟨rfl, hbranch⟩ := Scope.branches_gotoIf (hcondition v hv) hgoto hload' hstart
  have hmeaning : (s.meaning aliases m.layout m.linker m.effect).condition condition = some v := by
    simp [Scope.meaning, Names.condition?, hv, Except.toOption]
  simp only [hmeaning, Option.some.injEq, exists_eq_left']
  have hsim' : m.Simulates e a (Exit.address (a + Emission.sizes xs)
      (a + Emission.sizes xs + Emission.sizes ys) (a + Emission.sizes xs)) := by
    refine hsim.redirect fun u x t h => .inl ?_
    cases x with
    | done => rfl
    | left => rfl
    | again => exact if_pos (hcontinues u t h)
  refine ⟨hr, hsim'.repeats rfl ?_ rfl⟩
  intro x hx u
  obtain ⟨k, hk, hrun⟩ := hbranch u
  cases x with
  | done => exact ⟨k, fun _ => hk, hrun⟩
  | left => exact (hx rfl).elim
  | again => exact ⟨k, fun _ => hk, hrun⟩

/-- A condition that skips the one instruction after it unless it holds. -/
theorem branch_skip {l yl : Location} {i : AsmInstruction} {v : Value} {mnemonic : Mnemonic}
    {x y : Operand} (hi : i.isStraight) (hv : v.isCondition)
    (hskip : (Stmt.asm i).skip? v = some (mnemonic, x, y))
    (he : m.Realizes s inLoop aliases (discard (s.asm i)) e) :
    m.Realizes s inLoop aliases
      (do
        s.place l (Selection.emit mnemonic [x, y])
        Lowering.limited 1 2 yl (discard (s.asm i)))
      (.choice true v e (.exit .done)) := by
  intro p q es a left again hp h hload hloop
  rw [yields_bind_state] at h
  obtain ⟨_, _, _, _, hplace, hlimited, rfl⟩ := h
  obtain ⟨⟨is, his, rfl⟩, rfl⟩ := Scope.yields_place.mp hplace
  obtain rfl := Selection.gives_emit his
  obtain ⟨start, stop, fs, hfs, -, rfl⟩ := Lowering.yields_limited hlimited
  obtain ⟨mnemonic', operands, -, -, -, rfl, -⟩ := Scope.yields_straight hi hfs
  simp only [List.map_cons, List.map_nil, List.cons_append, List.nil_append, loaded_instruction,
    loaded_label, loaded_limit, Emission.sizes_instruction, Emission.sizes_label,
    Emission.sizes_limit, Emission.sizes_nil, ← Nat.add_assoc, Nat.add_zero] at hload ⊢
  obtain ⟨-, hat, -, hb, hbody, -, hend⟩ := hload
  obtain ⟨test, hcontrol, hplain, hask⟩ := Stmt.skip_spec hv hskip s.comment
  have hbranch : m.Branches a (a + mnemonic.size) (a + mnemonic.size + mnemonic'.size) false
      (v.ask true) := by
    intro u
    refine ⟨1, Nat.one_pos, Machine.run_one ((step_skip hat hplain hcontrol hbody).trans ?_)⟩
    rw [hask]
    cases test u.cpu <;> rfl
  have hload' := loaded_instruction.mpr ⟨hb, hbody, hend⟩
  obtain ⟨hq, hsim⟩ := he { p with probes := p.probes + 1 } q _ _ left again hp hfs hload' hloop
  exact ⟨hq, .branch hbranch hsim.follows (follows_exit rfl)⟩

theorem resolve {condition : Located Expr} {g : Value → Lowering Unit} {h : Value → Execution μ}
    (hg : ∀ v, ((s.names aliases).resolve condition).outcome = .ok v →
      m.Realizes s inLoop aliases (g v) (h v)) :
    m.Realizes s inLoop aliases (s.resolve condition >>= g) fun u x t =>
      ∃ v, (s.meaning aliases m.layout m.linker m.effect).condition condition = some v ∧
        h v u x t := by
  intro p q es a left again hp hy hload hloop
  simp only [yields_bind_state, Scope.yields_resolve] at hy
  obtain ⟨v, _, _, ys, ⟨rfl, hv, rfl⟩, hy, rfl⟩ := hy
  rw [hp] at hv
  have hmeaning : (s.meaning aliases m.layout m.linker m.effect).condition condition = some v := by
    simp [Scope.meaning, Names.condition?, hv, Except.toOption]
  simp only [hmeaning, Option.some.injEq, exists_eq_left']
  exact hg v hv p q _ a left again hp hy hload hloop

section

variable {expand : Location → Procedure → Scope → Lowering Unit} {condition : Located Expr}
  {l yl : Location} {yes : Stmt} {no : Option (Located Stmt)}

theorem jump_eq_none {g : Located Expr → Option Value} (hyes : yes.isStructured g inLoop)
    (hexit : ¬ yes.isExit) : s.jump? yl yes = none := by
  cases yes with
  | goto name => cases hyes
  | leave => exact (hexit rfl).elim
  | again => exact (hexit rfl).elim
  | _ => rfl

/-- What is structured and may be skipped is a written instruction. -/
theorem eq_asm_of_skip {g : Located Expr → Option Value} {v : Value}
    {r : Mnemonic × Operand × Operand} (hyes : yes.isStructured g inLoop)
    (h : yes.skip? v = some r) : ∃ i, yes = .asm i ∧ i.isStraight := by
  have hskip := Stmt.isSkippable_of_skip h
  cases yes with
  | asm i => exact ⟨i, rfl, hyes⟩
  | expr e => cases hyes
  | _ => cases hskip

/-- All the shapes that the code of a conditional statement has. -/
theorem branch {g : Located Expr → Option Value}
    (hcondition : ∀ v, ((s.names aliases).resolve condition).outcome = .ok v → v.isCondition)
    (hyes : yes.isStructured g inLoop)
    (he : m.Realizes s inLoop aliases (s.lower expand yl yes)
      (yes.Executes (s.meaning aliases m.layout m.linker m.effect)))
    (hf : m.Realizes s inLoop aliases (s.lowerOption expand no)
      (executesOption (s.meaning aliases m.layout m.linker m.effect) no)) :
    m.Realizes s inLoop aliases (s.lower expand l (.branch condition ⟨yl, yes⟩ no))
      ((Stmt.branch condition ⟨yl, yes⟩ no).Executes
        (s.meaning aliases m.layout m.linker m.effect)) := by
  simp only [Scope.lower]
  refine resolve fun v hv => ?_
  have hv := hcondition v hv
  by_cases hexit : yes.isExit
  · have hasks : yes.asks no v = true := by simp [Stmt.asks, hexit]
    rw [hasks]
    cases yes with
    | leave => exact branch_exit false hyes hv hf
    | again => exact branch_exit true hyes hv hf
    | _ => cases hexit
  simp only [jump_eq_none hyes hexit]
  split
  · next hno =>
    rw [executesOption_isEmpty hno]
    split
    · next mnemonic x y hskip =>
      have hasks : yes.asks no v = true := by simp [Stmt.asks, hno, hskip]
      obtain ⟨i, rfl, hi⟩ := eq_asm_of_skip hyes hskip
      rw [hasks]
      exact branch_skip hi hv hskip he
    · next hskip =>
      have hasks : yes.asks no v = false := by simp [Stmt.asks, hno, hskip, hexit]
      rw [hasks]
      exact branch_one hv he
  · next hno =>
    split
    · next hempty =>
      have hasks : yes.asks no v = true := by simp [Stmt.asks, hno, hempty]
      rw [hasks, Stmt.executes_isEmpty yes hempty]
      exact branch_one hv hf
    · next hempty =>
      have hasks : yes.asks no v = false := by simp [Stmt.asks, hno, hempty, hexit]
      rw [hasks]
      exact branch_two hv he hf

end

end Realizes

section

variable {m : Flash μ} {expand : Location → Procedure → Scope → Lowering Unit} {aliases : Aliases}

theorem isCondition_of_any {s : Scope} {c : Located Expr}
    (h : ((s.names aliases).condition? c).any Value.isCondition) :
    ∀ v, ((s.names aliases).resolve c).outcome = .ok v → v.isCondition := by
  intro v hv
  simpa [Names.condition?, hv, Except.toOption] using h

mutual

/-- The code of a structured statement does what the statement is meant to do. -/
theorem realizes_lower {s : Scope} {inLoop : Bool} {l : Location} (st : Stmt)
    (hst : st.isStructured (s.names aliases).condition? inLoop) :
    m.Realizes s inLoop aliases (s.lower expand l st)
      (st.Executes (s.meaning aliases m.layout m.linker m.effect)) := by
  match st with
  | .asm i =>
    simp only [Stmt.isStructured] at hst
    simp only [Scope.lower]
    exact .asm hst
  | .leave =>
    simp only [Scope.lower]
    exact .exit false hst
  | .again =>
    simp only [Scope.lower]
    exact .exit true hst
  | .branch c ⟨yl, yes⟩ none =>
    simp only [Stmt.isStructured, Bool.and_eq_true] at hst
    exact .branch (isCondition_of_any hst.1) hst.2 (realizes_lower yes hst.2) .nothing
  | .branch c ⟨yl, yes⟩ (some ⟨nl, no⟩) =>
    simp only [Stmt.isStructured, Bool.and_eq_true] at hst
    exact .branch (isCondition_of_any hst.1.1) hst.1.2 (realizes_lower yes hst.1.2)
      (realizes_lower no hst.2)
  | .loop none body =>
    simp only [Stmt.isStructured] at hst
    have hbody (labels : Option LoopLabels) := realizes_lowerAll (s := { s with loop := labels })
      body hst
    simp only [Scope.meaning_loop] at hbody
    simp only [Scope.lower]
    exact .loop (hbody _)
  | .doWhile body c =>
    simp only [Stmt.isStructured, Bool.and_eq_true] at hst
    have hbody (labels : Option LoopLabels) := realizes_lowerAll (s := { s with loop := labels })
      body hst.1
    simp only [Scope.meaning_loop] at hbody
    simp only [Scope.lower]
    exact .doWhile (isCondition_of_any hst.2) (hbody _)
      (fun u t h => continues_of_executesAll body h) fun h => by simp [h]
  | .block body =>
    simp only [Stmt.isStructured] at hst
    simp only [Scope.lower]
    exact realizes_lowerAll body hst
termination_by structural st

theorem realizes_lowerAll {s : Scope} {inLoop : Bool} (body : List (Located Stmt))
    (hbody : areStructured (s.names aliases).condition? inLoop body) :
    m.Realizes s inLoop aliases (s.lowerAll expand body)
      (executesAll (s.meaning aliases m.layout m.linker m.effect) body) := by
  match body with
  | [] =>
    simp only [Scope.lowerAll]
    exact .nothing
  | ⟨l, st⟩ :: rest =>
    simp only [areStructured, Bool.and_eq_true] at hbody
    simp only [Scope.lowerAll]
    exact .sequence (realizes_lower st hbody.1) (realizes_lowerAll rest hbody.2)
termination_by structural body

end

end

end Flash

/-- The code of a structured statement takes up a stretch of a section, whatever is laid out around
it. From every state the statement ends in another one just if the code of that stretch, run from
its start, reaches the address after its end in that other state. The stretch is short enough for
the distances in it, which are signed 32-bit words. -/
theorem structured_flow_preserved {μ : Type} (formats : List Format) (options : OutputOptions)
    (linker : Bool) (o : Outputs) (listing : Listing) (before es after : List Emission) (s : Scope)
    (depth : Nat) (l : Location) (st : Stmt) (p q : Progress) (effect : Effect μ)
    (hformats : formats ≠ [])
    (hlower : (s.lower (Scope.expandUpTo depth) l st p).Yields es ((), q))
    (hemit : (Outputs.ofFormats formats options).emitAll (before ++ es ++ after) = .ok o)
    (hresolve : o.layout.resolve linker = .ok listing)
    (hstructured : st.isStructured (s.names p.aliases).condition? false)
    (hsize : Emission.sizes es < 0x80000000) :
    ∃ start lines, o.layout.Places linker start es lines ∧
      (lines ≠ [] → ∃ sec ∈ listing.sections, ∃ pre post, sec.lines = pre ++ lines ++ post) ∧
      ∀ u t, st.Executes (s.meaning p.aliases o.layout linker effect) u .done t ↔
        Machine.Reaches ⟨lines, effect⟩ ⟨start, u⟩ ⟨start + Emission.sizes es, t⟩ := by
  have happly := Outputs.ofFormats_applyAll hformats hemit
  have hinPlace : ∀ e ∈ es, e.InPlace := by
    rw [← hlower.1]
    exact Scope.inPlace_lower (Scope.inPlace_expandUpTo depth) s l st p
  obtain ⟨start, lines, hplaces, hsection⟩ := Layout.exists_places happly hinPlace hresolve
  refine ⟨start, lines, hplaces, hsection, ?_⟩
  let m : Flash μ :=
    { code := lines, effect, layout := o.layout, linker, origin := start
      stop := start + Emission.sizes es, near := by omega }
  have hload : m.Loaded start es :=
    Layout.Places.loaded (m := m) hplaces (List.nil_append lines).symm (by simp)
      ⟨rfl, Nat.le_refl _, Nat.le_add_right _ _⟩ (Nat.le_refl _)
  have hend : m.fetch (start + Emission.sizes es) = none :=
    Machine.findSome_instructionAt hplaces.below
  obtain ⟨-, hsim⟩ := Flash.realizes_lower (m := m) st hstructured p q es start 0 0 rfl hlower hload
    nofun
  intro u t
  constructor
  · intro h
    obtain ⟨k, hk, -⟩ := hsim.forth u .done t h
    exact ⟨k, hk⟩
  · intro h
    obtain ⟨n, hn⟩ := h
    obtain ⟨x, t', ht'⟩ := hsim.back n u _ hn hend
    obtain rfl := st.done_of_isStructured hstructured ht'
    obtain ⟨k, hk, -⟩ := hsim.forth u .done t' ht'
    cases Machine.run_unique hk hn hend hend
    exact ht'

namespace FlowSample

open Sample

def device : Device := { sampleDevice with registers := [⟨"SREG", 63, 1, [⟨"Z", 1⟩]⟩] }

def ident (name : String) : Located Expr := at1 (.ident name)

def bit (name : String) (n : Int32) : Located Expr :=
  at1 (.index (ident name) (at1 (.number n)))

def asm (mnemonic register : String) : Located Stmt :=
  at1 (.asm ⟨at1 mnemonic, [ident register]⟩)

/-- `r16[0] && !([r19, r18] < [r21, r20])` -/
def leaves : Located Expr :=
  onLine 2 (.binary .both (bit "r16" 0) (onLine 2 (.unary .not (onLine 2 (.binary (.rel .lt)
    (onLine 2 (.group [ident "r19", ident "r18"]))
    (onLine 2 (.group [ident "r21", ident "r20"])))))))

def leavesValue : Value :=
  .binary .both (.regBit ⟨16⟩ 0) (.unary .not
    (.binary (.rel .lt) (.group [⟨19⟩, ⟨18⟩]) (.group [⟨21⟩, ⟨20⟩])))

/-- `SREG->Z || r16 > r17` -/
def goesOn : Located Expr :=
  onLine 3 (.binary .either (onLine 3 (.arrow (ident "SREG") (ident "Z")))
    (onLine 3 (.binary (.rel .gt) (ident "r16") (ident "r17"))))

/-- A loop that is left in its middle, around one that goes on from its middle. -/
def statement : Stmt :=
  .loop none [
    asm "inc" "r16",
    onLine 2 (.branch leaves (onLine 2 .leave) none),
    onLine 3 (.doWhile [
      onLine 4 (.branch (ident "r22") (onLine 4 .again) none),
      onLine 5 (.branch (bit "r23" 3) (asm "clr" "r22") none),
      onLine 6 (.branch (onLine 6 (.binary (.rel .le) (ident "r22") (ident "r23")))
        (onLine 6 (.block [asm "dec" "r18", asm "inc" "r20"])) (some (asm "lsl" "r20")))] goesOn)]

def scope : Scope := { globals := { device, procedures := [] }, procedure := none }

def lowered : Trace (Unit × Progress) :=
  scope.lower (Scope.expandUpTo 1) (.point "a" 1 1) statement {}

def listing : Checked Listing := do
  let o ← (Outputs.ofFormats [.hex] {}).emitAll lowered.emitted
  o.layout.resolve false

def effect : Effect Unit := fun m operands s =>
  (s.cpu.exec { mnemonic := m, operands }).map fun cpu => { s with cpu }

def initial : State Unit := ⟨⟨fun _ => 0, {}⟩, ()⟩

theorem instruction_inc (l : Layout) :
    scope.instruction? [] l false ⟨at1 "inc", [ident "r16"]⟩ =
      some { mnemonic := .inc, operands := [.reg ⟨16⟩] } := by
  with_unfolding_all rfl

theorem condition_leaves :
    (scope.names []).condition? leaves = some leavesValue := by
  decide +kernel

theorem isStructured_statement : statement.isStructured (scope.names []).condition? false := by
  decide +kernel

theorem lowered_outcome : lowered.outcome = .ok ((), { probes := 1 }) := by
  with_unfolding_all rfl

theorem lowered_size : Emission.sizes lowered.emitted = 40 := by
  decide +kernel

theorem listing_isOk : listing.isOk := by
  decide +kernel

/-- `r16` becomes 1, and the comparison fails, by which the loop is left. -/
theorem executes_statement (l : Layout) :
    ∃ t : State Unit, t.cpu.regs ⟨16⟩ = 1 ∧
      statement.Executes (scope.meaning [] l false effect) initial .done t := by
  let u : State Unit := ⟨initial.cpu.increment ⟨16⟩, ()⟩
  let asked := u.answer true leavesValue
  have hinc : (asm "inc" "r16").value.Executes (scope.meaning [] l false effect) initial .done u :=
    ⟨rfl, _, instruction_inc l, rfl⟩
  have hleave : (Stmt.branch leaves (onLine 2 .leave) none).Executes
      (scope.meaning [] l false effect) u .left asked.2 := by
    refine ⟨leavesValue, condition_leaves, ?_⟩
    have hasked : (u.answer (Stmt.asks .leave none leavesValue) leavesValue).1 := by
      decide +kernel
    rw [Execution.choice, if_pos hasked]
    exact ⟨rfl, rfl⟩
  exact ⟨asked.2, rfl, rfl, .left (.inl ⟨u, hinc, .inr ⟨nofun, hleave⟩⟩)⟩

end FlowSample

open FlowSample in
/-- The nested loops come out as they were meant, and from cleared registers they end. -/
theorem structured_flow_preserved_nested :
    ∃ o listing start lines,
      (Outputs.ofFormats [.hex] {}).emitAll FlowSample.lowered.emitted = .ok o ∧
      o.layout.resolve false = .ok listing ∧
      (lines ≠ [] → ∃ sec ∈ listing.sections, ∃ pre post, sec.lines = pre ++ lines ++ post) ∧
      (∀ u t, FlowSample.statement.Executes (scope.meaning [] o.layout false effect) u .done t ↔
        Machine.Reaches ⟨lines, effect⟩ ⟨start, u⟩ ⟨start + 40, t⟩) ∧
      ∃ t : State Unit, t.cpu.regs ⟨16⟩ = 1 ∧
        Machine.Reaches ⟨lines, effect⟩ ⟨start, initial⟩ ⟨start + 40, t⟩ := by
  obtain ⟨listing, hlisting⟩ : ∃ x, FlowSample.listing = .ok x := by
    have hok := listing_isOk
    cases h : FlowSample.listing with
    | ok x => exact ⟨x, rfl⟩
    | error e =>
      rw [h] at hok
      cases hok
  obtain ⟨o, hemit, hresolve⟩ := Outcome.bind_ok.mp hlisting
  obtain ⟨start, lines, hplaces, hsection, hiff⟩ :=
    structured_flow_preserved [.hex] {} false o listing [] lowered.emitted [] scope 1
      (.point "a" 1 1) statement {} { probes := 1 } effect (by simp) ⟨rfl, lowered_outcome⟩
      (by simpa using hemit) hresolve isStructured_statement (by rw [lowered_size]; decide)
  rw [lowered_size] at hiff
  obtain ⟨t, ht, hexecutes⟩ := executes_statement o.layout
  exact ⟨o, listing, start, lines, hemit, hresolve, hsection, hiff, t, ht,
    (hiff initial t).mp hexecutes⟩

end Avr
