import Avr.Proofs.ConditionalJumps
import Avr.Proofs.StructuredFlow

namespace Avr

open Outcome

namespace Selection

/-- All instructions of the selection stay. -/
def Stays (known : String → Prop) (x : Selection) : Prop :=
  ∀ is, x.Gives is → ∀ c l, Emission.Stays known (Emission.ofCode c l is)

variable {known : String → Prop} {name : String}

theorem stays_fail (e : SemanticError) : Stays known (fail e) := fun _ h => (not_gives_fail h).elim

theorem IsStraight.stays {x : Selection} (h : x.IsStraight) : Stays known x := by
  intro is his c l
  replace h := h is his
  clear his
  induction is with
  | nil => trivial
  | cons i is ih =>
    obtain ⟨hstraight, hstill⟩ := h i (by simp)
    exact ⟨.straight hstraight hstill, ih fun i hi => h i (by simp [hi])⟩

theorem stays_jump {m : Mnemonic} (hjump : m.isJump) {operands : List Operand}
    (hlast : operands.getLast? = some (.label (.plain name))) (hknown : known name) :
    Stays known (emit m operands) := by
  intro is h c l
  obtain rfl := gives_emit h
  refine ⟨.jump hjump ?_ hknown, trivial⟩
  simp [Instruction.label?, Instruction.withComment, hlast]

/-- Jumps on a condition stay if their target is known. -/
theorem JumpPair.stays {u : LabelRef} {x y : Selection} (h : JumpPair (.plain name) u x y)
    (hknown : known name) : Stays known x := by
  induction h with
  | fault e => exact stays_fail e
  | never =>
    intro is h c l
    obtain rfl := gives_nothing h
    trivial
  | jump hforms =>
    rcases hforms with rfl | hforms
    · exact stays_jump rfl rfl hknown
    · exact stays_jump (Mnemonic.isJump_of_forms (.inl hforms)) rfl hknown
  | flag hforms k => exact stays_jump (Mnemonic.isJump_of_forms (.inr hforms)) rfl hknown
  | after hstraight _ ih =>
    intro is h c l
    obtain ⟨js, ks, hjs, hks, rfl⟩ := gives_sequence_cons.mp h
    rw [gives_sequence_one] at hks
    rw [Emission.ofCode_append]
    exact (hstraight.stays js hjs c l).append (ih ks hks c l)
  | skip hskip operands =>
    intro is h c l
    obtain ⟨js, ks, hjs, hks, rfl⟩ := gives_sequence_cons.mp h
    rw [gives_sequence_one] at hks
    obtain rfl := gives_emit hjs
    obtain rfl := gives_emit hks
    exact ⟨.skip hskip rfl, .jump rfl rfl hknown, trivial⟩

end Selection

namespace Lowering

open Trace

/-- Has the label in what it emits. -/
def Defines (name : String) (x : Lowering Unit) : Prop :=
  ∀ p q es, (x p).Yields es ((), q) → ∃ e ∈ es, e.label? = some name

theorem defines_define (l : Location) (name : String) : Defines name (Trace.define l name) := by
  intro p q es h
  obtain ⟨-, rfl⟩ := Scope.yields_define h
  exact ⟨_, List.mem_singleton_self _, rfl⟩

theorem Defines.before {name : String} {x : Lowering Unit} (h : Defines name x)
    (y : Lowering Unit) : Defines name (do x; y) := by
  intro p q es hbind
  obtain ⟨_, _, xs, ys, hx, -, rfl⟩ := yields_bind_state.mp hbind
  obtain ⟨e, he, hlabel⟩ := h _ _ _ hx
  exact ⟨e, by simp [he], hlabel⟩

theorem Defines.behind {name : String} {y : Lowering Unit} (h : Defines name y)
    (x : Lowering Unit) : Defines name (do x; y) := by
  intro p q es hbind
  obtain ⟨_, _, xs, ys, -, hy, rfl⟩ := yields_bind_state.mp hbind
  obtain ⟨e, he, hlabel⟩ := h _ _ _ hy
  exact ⟨e, by simp [he], hlabel⟩

/-- What is emitted stays, with jumps to its own labels and to those outside. -/
def Stays (outer : String → Prop) (x : Lowering Unit) : Prop :=
  ∀ p q es, (x p).Yields es ((), q) →
    Emission.Stays (fun n => (∃ e ∈ es, e.label? = some n) ∨ outer n) es

namespace Stays

variable {outer outer' : String → Prop} {x y : Lowering Unit}

theorem mono (h : Stays outer x) (houter : ∀ n, outer n → outer' n) : Stays outer' x := by
  intro p q es hx
  exact (h p q es hx).mono fun n hn => hn.imp_right (houter n)

theorem nothing : Stays outer (pure ()) := by
  intro p q es h
  obtain ⟨rfl, -, -⟩ := yields_pure_state.mp h
  trivial

theorem define (l : Location) (name : String) : Stays outer (Trace.define l name) := by
  intro p q es h
  obtain ⟨-, rfl⟩ := Scope.yields_define h
  exact ⟨rfl, trivial⟩

theorem sequence (hx : Stays outer x) (hy : Stays outer y) : Stays outer (do x; y) := by
  intro p q es h
  obtain ⟨_, _, xs, ys, hxs, hys, rfl⟩ := yields_bind_state.mp h
  refine .append ((hx _ _ _ hxs).mono ?_) ((hy _ _ _ hys).mono ?_)
  · intro n hn
    exact hn.imp_left fun h => h.imp fun e he => ⟨List.mem_append_left ys he.1, he.2⟩
  · intro n hn
    exact hn.imp_left fun h => h.imp fun e he => ⟨List.mem_append_right xs he.1, he.2⟩

/-- A label of the code itself need not be known outside. -/
theorem hide (name : String) (h : Stays (fun n => n = name ∨ outer n) x) (hname : Defines name x) :
    Stays outer x := by
  intro p q es hx
  refine (h p q es hx).mono ?_
  intro n hn
  rcases hn with hn | rfl | hn
  · exact .inl hn
  · exact .inl (hname p q es hx)
  · exact .inr hn

theorem reads {r : Lowering α} {f : α → Lowering Unit} (hr : Reads r)
    (hf : ∀ a, Stays outer (f a)) : Stays outer (r >>= f) := by
  intro p q es h
  obtain ⟨a, _, xs, ys, ha, hys, rfl⟩ := yields_bind_state.mp h
  obtain ⟨rfl, -, -⟩ := hr _ _ _ _ ha
  exact hf a _ _ _ hys

end Stays

end Lowering

namespace Scope

open Lowering Trace

variable {s : Scope} {l : Location} {outer : String → Prop}

theorem stays_place {code : Selection} (h : code.Stays outer) : Stays outer (s.place l code) := by
  intro p q es hplace
  obtain ⟨⟨is, his, rfl⟩, -⟩ := yields_place.mp hplace
  exact (h is his s.comment l).mono fun n hn => .inr hn

theorem stays_goto {name : String} (hname : outer name) : Stays outer (s.goto l (.plain name)) :=
  stays_place (Selection.stays_jump rfl rfl hname)

theorem stays_forM_append {xs ys : List Test} (hx : Stays outer (xs.forM (s.test l)))
    (hy : Stays outer (ys.forM (s.test l))) : Stays outer ((xs ++ ys).forM (s.test l)) := by
  intro p q es h
  obtain ⟨r, as, bs, has, hbs, rfl⟩ := yields_forM_append.mp h
  exact hx.sequence hy p q _ (yields_bind_state.mpr ⟨(), r, as, bs, has, hbs, rfl⟩)

/-- Two conditions, and the label for the case that the first one settles it. -/
theorem stays_tests_label {xs ys : List Test} {out : String}
    (hx : Stays (· = out) (xs.forM (s.test l))) (hy : Stays outer (ys.forM (s.test l))) :
    Stays outer ((xs ++ ys ++ [Test.label out]).forM (s.test l)) := by
  refine .hide out (stays_forM_append (stays_forM_append ?_ ?_) ?_) ?_
  · exact hx.mono fun n hn => .inl hn
  · exact hy.mono fun n hn => .inr hn
  · exact .sequence (.define l out) .nothing
  · intro p q es h
    obtain ⟨r, as, bs, -, -, rfl⟩ := yields_tests_label h
    exact ⟨_, List.mem_append_right _ (List.mem_singleton_self _), rfl⟩

theorem stays_test (truth : Bool) (v : Value) {name : String} (hname : outer name) :
    Stays outer ([Test.jump (Selection.jumpIf truth false (.plain name) v)].forM (s.test l)) :=
  have hpair := Selection.pair_jumpIf (t := .plain name) (u := .plain name) truth false v
  .sequence (stays_place (hpair.stays hname)) .nothing

theorem stays_jumps (truth : Bool) (v : Value) {name : String} (stem : String)
    (hname : outer name) :
    Stays outer ((Test.jumps truth v (.plain name) stem).forM (s.test l)) := by
  induction v generalizing truth name stem outer with
  | binary op a b iha ihb =>
    cases op with
    | both =>
      cases truth with
      | true => exact stays_tests_label (iha false _ rfl) (ihb true _ hname)
      | false => exact stays_forM_append (iha false _ hname) (ihb false _ hname)
    | either =>
      cases truth with
      | true => exact stays_forM_append (iha true _ hname) (ihb true _ hname)
      | false => exact stays_tests_label (iha true _ rfl) (ihb false _ hname)
    | _ => cases truth <;> exact stays_test _ _ hname
  | unary op v ih =>
    cases op with
    | not => cases truth <;> exact ih _ _ hname
    | _ => cases truth <;> exact stays_test _ _ hname
  | _ => cases truth <;> exact stays_test _ _ hname

theorem stays_gotoIf (truth : Bool) (v : Value) {name : String} (stem : String)
    (hname : outer name) : Stays outer (s.gotoIf l truth v (.plain name) stem) :=
  stays_jumps truth v stem hname

end Scope

mutual

/-- Made of instructions that neither transfer control nor use the stack, of conditional statements
and blocks, and of `break` and `continue`. -/
def Stmt.sparesStack (st : Stmt) : Bool :=
  match st with
  | .asm i => (Mnemonic.ofName? i.mnemonic.value).any fun m => m.isStraight && !m.isStack
  | .leave | .again => true
  | .branch _ ⟨_, yes⟩ none => yes.sparesStack
  | .branch _ ⟨_, yes⟩ (some ⟨_, no⟩) => yes.sparesStack && no.sparesStack
  | .block body => spareStack body
  | _ => false
termination_by structural st

def spareStack (body : List (Located Stmt)) : Bool :=
  match body with
  | [] => true
  | ⟨_, st⟩ :: rest => st.sparesStack && spareStack rest
termination_by structural body

end

theorem Stmt.sparesStack_branch {condition : Located Expr} {yl : Location} {yes : Stmt}
    {no : Option (Located Stmt)} :
    (Stmt.branch condition ⟨yl, yes⟩ no).sparesStack =
      (yes.sparesStack && no.all (·.value.sparesStack)) := by
  cases no <;> simp [sparesStack]

def LoopLabels.Names (labels : LoopLabels) (n : String) : Prop :=
  n = labels.next ∨ n = labels.stop

namespace Scope

open Lowering Trace

variable {s : Scope} {expand : Location → Procedure → Scope → Lowering Unit} {labels : LoopLabels}
  {l yl : Location} {outer : String → Prop}

theorem yields_asm_sparing {i : AsmInstruction} {p q : Progress} {es : List Emission}
    (hi : (Stmt.asm i).sparesStack) (h : (discard (s.asm i) p).Yields es ((), q)) :
    ∃ m operands, m.isStraight ∧ m.isStack = false ∧
      es = [.instruction ⟨i.mnemonic.location, m, operands, s.comment⟩] := by
  have hstraight : i.isStraight := by
    unfold AsmInstruction.isStraight
    unfold Stmt.sparesStack at hi
    revert hi
    cases Mnemonic.ofName? i.mnemonic.value <;> simp +contextual
  obtain ⟨m, operands, hm, hm', -, rfl, -⟩ := yields_straight hstraight h
  exact ⟨m, operands, hm', by simpa [Stmt.sparesStack, hm, hm'] using hi, rfl⟩

theorem stays_asm {i : AsmInstruction} (hi : (Stmt.asm i).sparesStack) :
    Stays outer (discard (s.asm i)) := by
  intro p q es h
  obtain ⟨m, operands, hstraight, hstill, rfl⟩ := yields_asm_sparing hi h
  exact ⟨.straight hstraight hstill, trivial⟩

/-- A jump out of the body. -/
theorem stays_loopTarget {f : LabelRef → Lowering Unit} (hloop : s.loop = some labels)
    (continues : Bool) (hf : ∀ n, labels.Names n → Stays outer (f (.plain n))) :
    Stays outer (s.loopTarget l continues >>= f) := by
  simp only [loopTarget, hloop, pure_bind]
  refine hf _ ?_
  cases continues with
  | true => exact .inl rfl
  | false => exact .inr rfl

/-- What may be skipped is an instruction. -/
theorem eq_asm_of_isSkippable {st : Stmt} (hst : st.sparesStack) (h : st.isSkippable) :
    ∃ i, st = .asm i := by
  cases st with
  | asm i => exact ⟨i, rfl⟩
  | expr e => cases hst
  | _ => cases h

/-- A skip over the one instruction that is under it. -/
theorem stays_skip {i : AsmInstruction} (hi : (Stmt.asm i).sparesStack) {m : Mnemonic}
    (hm : m.isSkip) (operands : List Operand) :
    Stays outer (do
      s.place l (Selection.emit m operands)
      Lowering.limited 1 2 yl (s.lower expand yl (.asm i))) := by
  intro p q es h
  obtain ⟨_, _, _, _, hplace, hlimited, rfl⟩ := yields_bind_state.mp h
  obtain ⟨⟨is, his, rfl⟩, -⟩ := yields_place.mp hplace
  obtain rfl := Selection.gives_emit his
  obtain ⟨start, stop, fs, hfs, -, rfl⟩ := yields_limited hlimited
  simp only [lower] at hfs
  obtain ⟨m', operands', hstraight, hstill, rfl⟩ := yields_asm_sparing hi hfs
  exact ⟨.skip hm rfl, rfl, .straight hstraight hstill, rfl, rfl, trivial⟩

theorem isSkip_of_skip {st : Stmt} {v : Value} {m : Mnemonic} {a b : Operand}
    (h : st.skip? v = some (m, a, b)) : m.isSkip := by
  simp only [Stmt.skip?, Stmt.skip?.skipReg, Stmt.skip?.skipIo] at h
  split at h <;> simp at h <;> obtain ⟨-, rfl, -⟩ := h <;> rfl

section

variable {code code' : Lowering Unit} {stop other stem : String}

/-- A condition with one part, past which there is a jump if it is not wanted. -/
theorem stays_one (truth : Bool) (v : Value) (he : Stays outer code) :
    Stays outer (do s.gotoIf l truth v (.plain stop) stem; code; Trace.define l stop) := by
  refine .hide stop (.sequence ?_ (.sequence ?_ (.define l stop))) ?_
  · exact stays_gotoIf truth v stem (.inl rfl)
  · exact he.mono fun n hn => .inr hn
  · exact ((defines_define l stop).behind _).behind _

/-- A condition with two parts. -/
theorem stays_two (v : Value) (he : Stays outer code) (hf : Stays outer code') :
    Stays outer (do
      s.gotoIf l false v (.plain other) stem
      code
      s.goto l (.plain stop)
      Trace.define l other
      code'
      Trace.define l stop) := by
  have hdefine := defines_define l
  refine .hide stop (.hide other ?_ ?_) ?_
  · refine .sequence (stays_gotoIf false v stem (.inl rfl)) (.sequence ?_ (.sequence ?_ ?_))
    · exact he.mono fun n hn => .inr (.inr hn)
    · exact stays_goto (.inr (.inl rfl))
    · refine .sequence (.define l other) (.sequence ?_ (.define l stop))
      exact hf.mono fun n hn => .inr (.inr hn)
  · exact ((((hdefine other).before _).behind _).behind _).behind _
  · exact (((((hdefine stop).behind _).behind _).behind _).behind _).behind _

end

/-- All the shapes that the code of a conditional statement has. -/
theorem stays_branch {condition : Located Expr} {yes : Stmt} {no : Option (Located Stmt)}
    (hloop : s.loop = some labels) (hyes : yes.sparesStack)
    (he : Stays labels.Names (s.lower expand yl yes))
    (hf : Stays labels.Names (s.lowerOption expand no)) :
    Stays labels.Names (s.lower expand l (.branch condition ⟨yl, yes⟩ no)) := by
  simp only [lower]
  refine .reads (s.stateless_resolve condition).reads fun c => ?_
  have hexit (continues : Bool) : Stays labels.Names (do
      s.gotoIf l true c (← s.loopTarget yl continues) (s.generated "if" l)
      s.lowerOption expand no) :=
    stays_loopTarget hloop continues fun n hn => .sequence (stays_gotoIf true c _ hn) hf
  cases hjump : s.jump? yl yes with
  | some target =>
    cases yes with
    | leave =>
      cases hjump
      exact hexit false
    | again =>
      cases hjump
      exact hexit true
    | goto => cases hyes
    | _ => cases hjump
  | none =>
    dsimp only
    split
    · split
      · next m a b hskip =>
        obtain ⟨i, rfl⟩ := eq_asm_of_isSkippable hyes (Stmt.isSkippable_of_skip hskip)
        exact stays_skip hyes (isSkip_of_skip hskip) [a, b]
      · exact stays_one false c he
    · split
      · exact stays_one true c hf
      · exact stays_two c he hf

mutual

/-- The code of such a statement stays, but for jumps to the labels of the loop. -/
theorem stays_lower (hloop : s.loop = some labels) (l : Location) (st : Stmt)
    (hst : st.sparesStack) : Stays labels.Names (s.lower expand l st) := by
  match st with
  | .asm i =>
    simp only [lower]
    exact stays_asm hst
  | .leave =>
    simp only [lower]
    exact stays_loopTarget hloop false fun n hn => stays_goto hn
  | .again =>
    simp only [lower]
    exact stays_loopTarget hloop true fun n hn => stays_goto hn
  | .branch condition ⟨yl, yes⟩ no =>
    rw [Stmt.sparesStack_branch, Bool.and_eq_true] at hst
    exact stays_branch hloop hst.1 (stays_lower hloop yl yes hst.1)
      (stays_lowerOption hloop no hst.2)
  | .block body =>
    simp only [lower]
    exact stays_lowerAll hloop body hst
termination_by structural st

theorem stays_lowerOption (hloop : s.loop = some labels) (st : Option (Located Stmt))
    (hst : st.all (·.value.sparesStack)) : Stays labels.Names (s.lowerOption expand st) := by
  match st with
  | none => exact .nothing
  | some ⟨l, st⟩ => exact stays_lower hloop l st hst
termination_by structural st

theorem stays_lowerAll (hloop : s.loop = some labels) (body : List (Located Stmt))
    (hbody : spareStack body) : Stays labels.Names (s.lowerAll expand body) := by
  match body with
  | [] => exact .nothing
  | ⟨l, st⟩ :: rest =>
    rw [spareStack, Bool.and_eq_true] at hbody
    simp only [lowerAll]
    exact .sequence (stays_lower hloop l st hbody.1) (stays_lowerAll hloop rest hbody.2)
termination_by structural body

end

end Scope

/-- The same stack instruction for each of the registers. -/
def Emission.onRegisters (m : Mnemonic) (l : Location) (c : Option String) (rs : List Reg) :
    List Emission :=
  rs.map fun r => .instruction ⟨l, m, [.reg r], c⟩

namespace Path

open Emission

variable {code rest : List Emission} {l : Location} {c : Option String} {r : Reg} {rs : List Reg}
  {s t : Frame} {w : Way}

/-- Where an instruction works on the stack, control goes on after it. -/
theorem after_stack {i : Located Instruction} (hi : i.value.mnemonic.isStack)
    (h : Path code ⟨.instruction i :: rest, s⟩ w t) :
    (∃ r, i.value.mnemonic = .push ∧ i.value.operands = [.reg r] ∧
        Path code ⟨rest, s.push r⟩ w t) ∨
      ∃ r b stack, i.value.mnemonic = .pop ∧ i.value.operands = [.reg r] ∧
        s.stack = b :: stack ∧ Path code ⟨rest, s.pop r b stack⟩ w t := by
  have hjump : i.value.mnemonic.isJump = false := by
    by_contra h
    simp [Mnemonic.isStack_of_isJump (Bool.eq_true_of_not_eq_false h)] at hi
  have hskip : i.value.mnemonic.isSkip = false := by
    by_contra h
    simp [Mnemonic.isStack_of_isSkip (Bool.eq_true_of_not_eq_false h)] at hi
  cases h with
  | leave h =>
    cases h with
    | jump h => simp [hjump] at h
    | past h => simp [hskip] at h
  | step h next =>
    cases h with
    | push => exact .inl ⟨_, rfl, rfl, next⟩
    | pop hfound => exact .inr ⟨_, _, _, rfl, rfl, hfound, next⟩
    | mark h => cases h
    | straight _ _ h => simp [h] at hi
    | fall h =>
      rcases h with h | h
      · simp [Mnemonic.isJump, h] at hjump
      · simp [hskip] at h
    | jump h => simp [hjump] at h
    | skip h => simp [hskip] at h

theorem after_push (h : Path code ⟨.instruction ⟨l, .push, [.reg r], c⟩ :: rest, s⟩ w t) :
    Path code ⟨rest, s.push r⟩ w t := by
  rcases after_stack rfl h with ⟨_, -, hr, hnext⟩ | ⟨_, _, _, hpop, -⟩
  · cases hr
    exact hnext
  · cases hpop

theorem after_pop {b : Byte} {stack : List Byte} (hstack : s.stack = b :: stack)
    (h : Path code ⟨.instruction ⟨l, .pop, [.reg r], c⟩ :: rest, s⟩ w t) :
    Path code ⟨rest, s.pop r b stack⟩ w t := by
  rcases after_stack rfl h with ⟨_, hpush, -⟩ | ⟨_, _, _, -, hr, hfound, hnext⟩
  · cases hpush
  · cases hr
    cases hstack.symm.trans hfound
    exact hnext

theorem after_pushes {es : List Emission} (hes : es = onRegisters .push l c rs ++ rest)
    (h : Path code ⟨es, s⟩ w t) :
    Path code ⟨rest, { s with
      stack := rs.reverse.map s.regs ++ s.stack
      pushes := s.pushes + rs.length }⟩ w t := by
  subst hes
  induction rs generalizing s with
  | nil => exact h
  | cons r rs ih =>
    have hnext := ih (after_push h)
    simpa [Frame.push, Nat.add_assoc, Nat.add_comm 1] using hnext

/-- What is on the stack goes back to the registers. -/
theorem after_pops {f : Reg → Byte} {below : List Byte} (hstack : s.stack = rs.map f ++ below)
    (h : Path code ⟨onRegisters .pop l c rs, s⟩ w t) :
    w = .done ∧ t.stack = below ∧ t.pushes = s.pushes ∧ t.pops = s.pops + rs.length ∧
      ∀ r, t.regs r = if r ∈ rs then f r else s.regs r := by
  induction rs generalizing s with
  | nil =>
    cases h with
    | leave h =>
      cases h
      exact ⟨rfl, hstack, rfl, rfl, by simp⟩
    | step h => cases h
  | cons r rs ih =>
    obtain ⟨hw, hbelow, hpushes, hpops, hregs⟩ := ih rfl (after_pop hstack h)
    refine ⟨hw, hbelow, hpushes, ?_, ?_⟩
    · simp only [hpops, Frame.pop, List.length_cons]
      omega
    · intro q
      rw [hregs q]
      by_cases hq : q ∈ rs
      · simp [hq]
      · by_cases hqr : q = r
        · simp [hqr, Frame.pop]
        · simp [hq, hqr, Frame.pop]

end Path

namespace Scope

open Lowering Trace

variable {s : Scope} {expand : Location → Procedure → Scope → Lowering Unit} {l : Location}

theorem yields_onRegisters {m : Mnemonic} {rs : List Reg} {p q : Progress} {es : List Emission}
    (h : ((rs.forM fun r => s.place l (Selection.onReg m r)) p).Yields es ((), q)) :
    p = q ∧ es = Emission.onRegisters m l s.comment rs := by
  induction rs generalizing p es with
  | nil =>
    obtain ⟨rfl, rfl⟩ := yields_forM_nil.mp h
    exact ⟨rfl, rfl⟩
  | cons r rs ih =>
    obtain ⟨_, _, _, hplace, hrest, rfl⟩ := yields_forM_cons.mp h
    obtain ⟨⟨is, his, rfl⟩, rfl⟩ := yields_place.mp hplace
    obtain ⟨rfl, rfl⟩ := ih hrest
    obtain rfl := Selection.gives_emit his
    exact ⟨rfl, rfl⟩

/-- The registers are saved in front of the body and taken back behind it. -/
theorem yields_saveRegs {registers : List (Located Expr)} {body : List (Located Stmt)}
    {p q : Progress} {es : List Emission}
    (h : (s.lower expand l (.saveRegs registers body) p).Yields es ((), q)) :
    ∃ groups code, (registers.mapM s.savedRegisters p).outcome = .ok (groups, p) ∧
      (s.lowerAll expand body p).Yields code ((), q) ∧
      es = Emission.onRegisters .push l s.comment groups.flatten ++ code ++
        Emission.onRegisters .pop l s.comment groups.flatten.reverse := by
  simp only [lower] at h
  obtain ⟨groups, _, _, _, hgroups, h₁, rfl⟩ := yields_bind_state.mp h
  have hreads : Reads (registers.mapM s.savedRegisters) :=
    (stateless_mapM fun e _ => s.stateless_savedRegisters e).reads
  obtain ⟨rfl, rfl, -⟩ := hreads _ _ _ _ hgroups
  obtain ⟨_, _, _, _, hpush, h₂, rfl⟩ := yields_bind_state.mp h₁
  obtain ⟨rfl, rfl⟩ := yields_onRegisters hpush
  obtain ⟨_, _, code, _, hcode, hpop, rfl⟩ := yields_bind_state.mp h₂
  obtain ⟨rfl, rfl⟩ := yields_onRegisters hpop
  exact ⟨groups, code, hgroups.2, hcode, by simp⟩

end Scope

namespace Layout

theorem names_apply {l m : Layout} {e : Emission} (h : l.apply e = .ok m) :
    m.labels.map Prod.fst = e.label?.toList ++ l.labels.map Prod.fst := by
  have hattempt : l.attempt e = m := by rw [attempt, h]
  rw [← hattempt, names_attempt]
  cases e with
  | label name =>
    change l.label name = .ok m at h
    simp [accepts, h, Emission.label?, Except.isOk, Except.toBool]
  | _ => rfl

theorem names_applyAll {l m : Layout} {es : List Emission} (h : l.applyAll es = .ok m) :
    m.labels.map Prod.fst = (es.filterMap Emission.label?).reverse ++ l.labels.map Prod.fst := by
  induction es generalizing l with
  | nil =>
    cases h
    rfl
  | cons e es ih =>
    obtain ⟨k, hk, h⟩ := applyAll_cons.mp h
    rw [ih h, names_apply hk]
    cases he : e.label? <;> simp [he]

end Layout

/-- In a program that compiles no label is defined twice. -/
theorem compile_labels_nodup {device : Device} {program : Program} {formats : List Format}
    {options : OutputOptions} {c : Compiled} (hformats : formats ≠ [])
    (h : compile device program (.ofFormats formats options) = .ok c) :
    ((program.lower device (Outputs.ofFormats formats options).linksExternals).emitted.filterMap
      Emission.label?).Nodup := by
  have happly := compile_applyAll hformats h
  have hdistinct := (Layout.sound_empty.applyAll happly).distinct
  rw [Layout.names_applyAll happly] at hdistinct
  simpa using hdistinct

/-- A label of the code around is not one of the code. -/
theorem Emission.label_ne_of_nodup {before es after : List Emission} {n : String}
    (hnodup : ((before ++ es ++ after).filterMap Emission.label?).Nodup)
    (h : ∃ e ∈ before ++ after, e.label? = some n) : ∀ e ∈ es, e.label? ≠ some n := by
  intro e he hlabel
  have hmem := List.mem_filterMap.mpr ⟨e, he, hlabel⟩
  obtain ⟨e', he', hlabel'⟩ := h
  rw [List.filterMap_append, List.filterMap_append] at hnodup
  obtain ⟨hfront, -, hbehind⟩ := List.nodup_append.mp hnodup
  rcases List.mem_append.mp he' with he' | he'
  · have hmem' := List.mem_filterMap.mpr ⟨e', he', hlabel'⟩
    exact (List.nodup_append.mp hfront).2.2 n hmem' n hmem rfl
  · have hmem' := List.mem_filterMap.mpr ⟨e', he', hlabel'⟩
    exact hbehind n (List.mem_append_right _ hmem) n hmem' rfl

/-- Registers are saved by a statement in a loop, whose labels stand around it. On every path out of
the code of the statement they have been pushed. Over its end they come back as they were, and the
stack too. The only other ways out are the jumps of `break` and `continue`, and there nothing has
been popped. So there are as many pops as pushes just at the end of the statement, or if there is
nothing to save. -/
theorem saved_registers_balance_iff (device : Device) (program : Program) (formats : List Format)
    (options : OutputOptions) (c : Compiled) (s : Scope) (labels : LoopLabels) (depth : Nat)
    (l : Location) (registers : List (Located Expr)) (body : List (Located Stmt)) (p q : Progress)
    (before es after : List Emission) (hformats : formats ≠ [])
    (hcompile : compile device program (.ofFormats formats options) = .ok c)
    (hemitted : (program.lower device (Outputs.ofFormats formats options).linksExternals).emitted =
      before ++ es ++ after)
    (hlower : (s.lower (Scope.expandUpTo depth) l (.saveRegs registers body) p).Yields es ((), q))
    (hloop : s.loop = some labels)
    (haround : ∀ n, labels.Names n → ∃ e ∈ before ++ after, e.label? = some n)
    (hbody : spareStack body) :
    ∃ groups, (registers.mapM s.savedRegisters p).outcome = .ok (groups, p) ∧
      ∀ regs stack w t, Path es ⟨es, { regs, stack }⟩ w t →
        t.pushes = groups.flatten.length ∧
        (w = .done → t.pops = groups.flatten.length ∧ t.stack = stack ∧
          ∀ r ∈ groups.flatten, t.regs r = regs r) ∧
        (w ≠ .done → (w = .jump (.plain labels.next) ∨ w = .jump (.plain labels.stop)) ∧
          t.pops = 0 ∧ t.stack = groups.flatten.reverse.map regs ++ stack) ∧
        (t.pushes = t.pops ↔ w = .done ∨ groups.flatten = []) := by
  obtain ⟨groups, code, hgroups, hcode, rfl⟩ := Scope.yields_saveRegs hlower
  refine ⟨groups, hgroups, ?_⟩
  generalize groups.flatten = saved at *
  have hnodup := compile_labels_nodup hformats hcompile
  rw [hemitted] at hnodup
  have hencloses : Encloses labels.Names (Emission.onRegisters .push l s.comment saved) code
      (Emission.onRegisters .pop l s.comment saved.reverse) := by
    refine ⟨?_, Scope.stays_lowerAll hloop body hbody p q code hcode, ?_⟩
    · intro e he
      obtain ⟨r, -, rfl⟩ := List.mem_map.mp he
      rfl
    · exact fun n hn => Emission.label_ne_of_nodup hnodup (haround n hn)
  intro regs stack w t hpath
  have hpushed := hpath.after_pushes (List.append_assoc _ _ _)
  rcases hencloses.path (List.suffix_refl code) hpushed with
    ⟨regs', htail⟩ | ⟨n, regs', hn, rfl, rfl⟩
  · obtain ⟨rfl, hstack, hpushes, hpops, hregs⟩ := htail.after_pops rfl
    simp only [Nat.zero_add, List.length_reverse] at hpushes hpops
    refine ⟨hpushes, fun _ => ⟨hpops, hstack, ?_⟩, fun h => (h rfl).elim, ?_⟩
    · intro r hr
      simp [hregs r, hr]
    · simp [hpushes, hpops]
  · refine ⟨Nat.zero_add _, nofun, fun _ => ⟨?_, rfl, rfl⟩, ?_⟩
    · rcases hn with rfl | rfl
      · exact .inl rfl
      · exact .inr rfl
    · simp

namespace SaveSample

open Sample

def registers : List (Located Expr) := [at1 (.ident "r16")]

/-- `loop { saveregs(r16) { break } }` -/
def main : Procedure :=
  ⟨at1 "main", [], [at1 (.loop none [at1 (.saveRegs registers [at1 .leave])])], false⟩

def program : Program := { vectors := none, items := [at1 (.procedure main)] }

def labels : LoopLabels := ⟨"main@loop@1", "main@loopEnd@1"⟩

def scope : Scope :=
  { globals := { device := sampleDevice, procedures := [main] }
    procedure := some main
    loop := some labels }

def lowered : Trace (Unit × Progress) :=
  scope.lower (Scope.expandUpTo 1) (.point "a" 1 1) (.saveRegs registers [at1 .leave]) {}

def code : List Emission :=
  [.instruction (at1 { mnemonic := .push, operands := [.reg ⟨16⟩] }),
    .instruction (at1 { mnemonic := .rjmp, operands := [.label (.plain "main@loopEnd@1")] }),
    .instruction (at1 { mnemonic := .pop, operands := [.reg ⟨16⟩] })]

def before : List Emission :=
  [.label (at1 "main"), .declare "main" .global, .label (at1 "main@loop@1")]

def after : List Emission :=
  [.instruction (at1 { mnemonic := .rjmp, operands := [.label (.plain "main@loop@1")] }),
    .label (at1 "main@loopEnd@1")]

theorem compile_isOk :
    (compile sampleDevice program (.ofFormats [.binary] {})).toOption.isSome := by
  decide +kernel

theorem lowered_code : lowered.emitted = code := by
  with_unfolding_all rfl

theorem lowered_outcome : lowered.outcome = .ok ((), {}) := by
  with_unfolding_all rfl

theorem program_emitted : (program.lower sampleDevice false).emitted = before ++ code ++ after := by
  with_unfolding_all rfl

theorem saved : (registers.mapM scope.savedRegisters {}).outcome = .ok ([[⟨16⟩]], {}) := by
  with_unfolding_all rfl

end SaveSample

open SaveSample in
/-- A `break` leaves the register on the stack. -/
theorem saved_registers_balance_iff_break :
    ∃ c, compile sampleDevice SaveSample.program (.ofFormats [.binary] {}) = .ok c ∧
      ∀ regs stack, ∃ t, Path code ⟨code, { regs, stack }⟩ (.jump (.plain "main@loopEnd@1")) t ∧
        t.pushes = 1 ∧ t.pops = 0 ∧ t.stack = regs ⟨16⟩ :: stack := by
  obtain ⟨c, hc⟩ := Option.isSome_iff_exists.mp compile_isOk
  have hc : compile sampleDevice SaveSample.program (.ofFormats [.binary] {}) = .ok c :=
    Outcome.eq_ok_of_toOption hc
  have haround : ∀ n, labels.Names n → ∃ e ∈ before ++ after, e.label? = some n := by
    intro n hn
    rcases hn with rfl | rfl
    · exact ⟨.label (Sample.at1 "main@loop@1"), by simp [before], rfl⟩
    · exact ⟨.label (Sample.at1 "main@loopEnd@1"), by simp [after], rfl⟩
  obtain ⟨groups, hgroups, hpaths⟩ :=
    saved_registers_balance_iff sampleDevice SaveSample.program [.binary] {} c scope labels 1
      (.point "a" 1 1) registers [Sample.at1 .leave] {} {} before code after (by simp) hc
      program_emitted ⟨lowered_code, lowered_outcome⟩ rfl haround rfl
  cases hgroups.symm.trans saved
  refine ⟨c, hc, fun regs stack => ?_⟩
  have hpath : Path code ⟨code, { regs, stack }⟩ (.jump (.plain "main@loopEnd@1"))
      (Frame.push { regs, stack } ⟨16⟩) :=
    .step .push (.leave (.jump rfl rfl rfl))
  obtain ⟨hpushes, -, hleft, -⟩ := hpaths regs stack _ _ hpath
  obtain ⟨-, hpops, hstack⟩ := hleft (by simp)
  exact ⟨_, hpath, hpushes, hpops, hstack⟩

end Avr
