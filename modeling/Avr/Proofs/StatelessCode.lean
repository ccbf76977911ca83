import Avr.Proofs.LabelFaults

namespace Avr

open Trace

/-- Is neither a label nor about a place. -/
def Emission.IsCode : Emission → Prop
  | instruction _ | data _ => True
  | _ => False

/-- Selected code is nothing but instructions. -/
theorem Trace.sends_place {P : Emission → Prop} (hP : ∀ i, P (.instruction i))
    {comment : Option String} {l : Location} {s : Selection} (h : s.SparesLabels) :
    Sends P (place comment l s) := by
  cases s with
  | error e => exact sends_throw fun name he => h name (by rw [he])
  | ok code =>
    refine ⟨fun e he => ?_, fun _ _ h => by cases h⟩
    obtain ⟨i, _, rfl⟩ := List.mem_map.mp he
    exact hP _

namespace Lowering

variable {P : Emission → Prop}

/-- Does what the aliases in force say, and changes nothing. All that it emits has the property. -/
def Stateless (P : Emission → Prop) (code : Lowering α) : Prop :=
  ∃ f : Aliases → Trace α, (∀ p, code p = (liftM (f p.aliases) : Lowering α) p) ∧
    ∀ aliases, Sends P (f aliases)

@[simp] theorem stateless_lift {x : Trace α} (h : Sends P x) :
    Stateless P (liftM x : Lowering α) :=
  ⟨fun _ => x, fun _ => rfl, fun _ => h⟩

@[simp] theorem stateless_pure (a : α) : Stateless P (pure a : Lowering α) :=
  ⟨fun _ => pure a, fun _ => (pure_bind _ _).symm, fun _ => sends_pure a⟩

@[simp] theorem stateless_bind {code : Lowering α} {f : α → Lowering β} (h : Stateless P code)
    (hf : ∀ a, Stateless P (f a)) : Stateless P (code >>= f) := by
  obtain ⟨x, hcode, hx⟩ := h
  obtain ⟨y, hy⟩ := Classical.skolem.mp hf
  refine ⟨fun aliases => x aliases >>= fun a => y a aliases, fun p => ?_, fun aliases => ?_⟩
  · change code p >>= (fun z => f z.1 z.2) = (x p.aliases >>= fun a => y a p.aliases) >>= _
    rw [hcode, bind_assoc]
    change (x p.aliases >>= fun a => pure (a, p)) >>= _ = _
    simp only [bind_assoc, pure_bind, (hy _).1]
    rfl
  · exact sends_bind (hx aliases) fun a => (hy a).2 aliases

@[simp] theorem stateless_map {code : Lowering α} (f : α → β) (h : Stateless P code) :
    Stateless P (f <$> code) := by
  rw [map_eq_pure_bind]
  exact stateless_bind h fun a => stateless_pure _

/-- The aliases are all that is looked at. -/
theorem stateless_aliases {f : Aliases → Lowering α} (h : ∀ aliases, Stateless P (f aliases)) :
    Stateless P (do f (← get).aliases) := by
  obtain ⟨x, hx⟩ := Classical.skolem.mp h
  exact ⟨fun aliases => x aliases aliases, fun p => (hx p.aliases).1 p,
    fun aliases => (hx aliases).2 aliases⟩

theorem stateless_forM {xs : List α} {f : α → Lowering PUnit}
    (h : ∀ x ∈ xs, Stateless P (f x)) : Stateless P (xs.forM f) := by
  induction xs with
  | nil => exact stateless_pure _
  | cons x xs ih =>
    exact stateless_bind (h x (by simp)) fun _ => ih fun y hy => h y (by simp [hy])

theorem stateless_mapM {xs : List α} {f : α → Lowering β} (h : ∀ x ∈ xs, Stateless P (f x)) :
    Stateless P (xs.mapM f) := by
  induction xs with
  | nil => exact stateless_pure _
  | cons x xs ih =>
    rw [List.mapM_cons]
    refine stateless_bind (h x (by simp)) fun y => ?_
    exact stateless_bind (ih fun z hz => h z (by simp [hz])) fun _ => stateless_pure _

theorem Stateless.emitsFrom {code : Lowering α} (h : Stateless P code) : EmitsFrom P code := by
  obtain ⟨f, hcode, hf⟩ := h
  intro p
  rw [hcode]
  exact emitsFrom_lift (hf _).emits p

end Lowering

namespace Scope

open Lowering

section Operands

variable {P : Emission → Prop} (s : Scope)

@[simp] theorem stateless_resolve (e : Located Expr) : Stateless P (s.resolve e) :=
  stateless_aliases (f := fun aliases => liftM ((s.names aliases).resolve e)) fun _ => by simp

@[simp] theorem stateless_constant (e : Located Expr) : Stateless P (s.constant e) :=
  stateless_aliases (f := fun aliases => liftM ((s.names aliases).constant e)) fun _ => by simp

@[simp] theorem stateless_loopTarget (l : Location) (continues : Bool) :
    Stateless P (s.loopTarget l continues) := by
  unfold loopTarget
  split <;> simp

theorem stateless_jump? {l : Location} {st : Stmt} {target : Lowering LabelRef}
    (h : s.jump? l st = some target) : Stateless P target := by
  unfold jump? at h
  split at h <;> cases h <;> simp

@[simp] theorem stateless_savedRegisters (e : Located Expr) : Stateless P (s.savedRegisters e) :=
  stateless_bind (by simp) fun v => by simp

@[simp] theorem stateless_pointerBase (e : Located Expr) : Stateless P (s.pointerBase e) :=
  stateless_bind (by simp) fun v => by simp

theorem sends_valueOperand (l : Location) (slot : Option Slot) (v : Value) :
    Sends P (valueOperand l slot v) := by
  unfold valueOperand
  split
  case h_9 =>
    unfold symbolOperand
    split <;> simp
  case h_10 =>
    split
    · simp
    · split <;> simp
  all_goals simp

@[simp] theorem stateless_plainOperand (slot : Option Slot) (last : Option IoRegister)
    (e : Located Expr) : Stateless P (s.plainOperand slot last e) :=
  stateless_bind (by simp) fun v => by simp [sends_valueOperand]

/-- Of all operands only the target of a jump can need code, to move the arguments of a call. -/
theorem stateless_operand {s : Scope} {slot : Option Slot} {last : Option IoRegister}
    {e : Located Expr}
    (h : ∀ call, slot.any Slot.isJump → Stateless P (s.callTarget e.location call)) :
    Stateless P (s.operand slot last e) := by
  unfold operand
  split
  case h_1 call _ =>
    split
    · next hjump => exact stateless_bind (h call hjump) fun _ => by simp
    · simp
  case h_5 => exact s.stateless_plainOperand _ _ _
  all_goals split <;> simp

theorem stateless_operands {s : Scope} {slots : List Slot} {last : Option IoRegister}
    {es : List (Located Expr)}
    (h : ∀ l call, slots.any Slot.isJump → Stateless P (s.callTarget l call)) :
    Stateless P (s.operands slots last es) := by
  induction es generalizing slots last with
  | nil => exact stateless_pure _
  | cons e es ih =>
    refine stateless_bind (stateless_operand fun call hjump => h _ call ?_) fun found =>
      stateless_bind (ih fun l call hjump => h l call ?_) fun _ => stateless_pure _
    · cases slots with
      | nil => cases hjump
      | cons slot slots => simp_all
    · cases slots with
      | nil => cases hjump
      | cons slot slots => simp_all

end Operands

section Code

variable {P : Emission → Prop} (hP : ∀ i, P (.instruction i)) (s : Scope)

include hP

theorem stateless_place (l : Location) {code : Selection} (h : code.SparesLabels) :
    Stateless P (s.place l code) :=
  stateless_lift (sends_place hP h)

theorem stateless_goto (l : Location) (target : LabelRef) : Stateless P (s.goto l target) :=
  stateless_place hP s l (by simp)

theorem stateless_bindArguments (p : Procedure) (call : Call Expr) (l : Location) :
    Stateless P (s.bindArguments p call l) := by
  have hparameter (arg : Argument Expr) : Sends P (parameter p call l arg) := by
    unfold parameter
    split <;> simp
  refine stateless_bind (by simp) fun _ => stateless_forM fun arg _ => ?_
  refine stateless_bind (stateless_lift (hparameter arg)) fun param => ?_
  refine stateless_bind (by simp) fun target => stateless_bind (by simp) fun value => ?_
  exact stateless_place hP s _ (by simp)

theorem stateless_callTarget (l : Location) (call : Call Expr) :
    Stateless P (s.callTarget l call) := by
  refine stateless_bind (by simp) fun p => ?_
  exact stateless_bind (stateless_bindArguments hP s p call l) fun _ => by simp

theorem stateless_asm (i : AsmInstruction) : Stateless P (s.asm i) := by
  refine stateless_bind (by simp) fun m => ?_
  refine stateless_bind (stateless_operands fun l call _ => stateless_callTarget hP s l call) ?_
  exact fun os => stateless_bind (stateless_place hP s _ (by simp)) fun _ => by simp

/-- Sets the counter up, unless the loop goes by a bit. -/
theorem stateless_counter (condition : Located Expr) : Stateless P (s.counter condition) := by
  have hstart (l : Location) (limit k : Int32) : Sends P (counterStart l limit k) := by
    unfold counterStart
    split
    · simp
    · split <;> simp
  have hvalue (l : Location) (v : Value) : Sends P (Counter.ofValue l v) := by
    unfold Counter.ofValue
    split
    case h_3 | h_4 => split <;> simp
    all_goals simp
  simp only [counter]
  split
  · refine stateless_bind (by simp) fun v => stateless_bind (by simp) fun k => ?_
    refine stateless_bind (by simp) fun limit => stateless_bind (by simp [hstart]) fun start => ?_
    exact stateless_bind (stateless_place hP s _ (by simp)) fun _ => by simp [hvalue]
  · exact stateless_bind (by simp) fun v => by simp [hvalue]

/-- A call is expanded, and so has more to it than other expressions. -/
theorem stateless_expression {expand : Location → Procedure → Scope → Lowering Unit}
    {l : Location} {e : Expr} (h : ∀ call, e ≠ .call call) :
    Stateless P (s.expression expand l e) := by
  unfold expression
  split
  · refine stateless_bind (by simp) fun t => stateless_bind (by simp) fun v => ?_
    exact stateless_place hP s l (by simp)
  · exact stateless_bind (by simp) fun v => stateless_place hP s l (by simp)
  · exact stateless_bind (by simp) fun v => stateless_place hP s l (by simp)
  · next call => exact absurd rfl (h call)
  · simp

/-- A condition has labels of its own where it is made of several. -/
theorem stateless_gotoIf (hlabel : ∀ n, P (.label n)) (l : Location) (truth : Bool) (v : Value)
    (target : LabelRef) (stem : String) : Stateless P (s.gotoIf l truth v target stem) := by
  refine stateless_forM fun t ht => ?_
  cases t with
  | jump code => exact stateless_place hP s l (Test.sparesLabels_jumps ht)
  | label name => exact stateless_lift (sends_emit.mpr (hlabel _))

end Code

theorem stateless_data {P : Emission → Prop} (hP : ∀ d, P (.data d)) (s : Scope) (l : Location)
    (block : DataBlock) : Stateless P (s.data l block) :=
  stateless_aliases (f := fun aliases => do
    let row ← (s.names aliases).dataRow block
    Trace.emit (.data ⟨l, row⟩)) fun _ =>
      stateless_bind (by simp) fun row => stateless_lift (sends_emit.mpr (hP _))

end Scope

theorem VectorAction.stateless_lower {P : Emission → Prop} (hP : ∀ i, P (.instruction i))
    (s : Scope) (l : Location) (a : VectorAction) : (a.lower s l).Stateless P := by
  cases a with
  | run i => exact s.stateless_asm hP i
  | jumpToMain => exact Lowering.stateless_bind (s.stateless_goto hP l _) fun _ => by simp
  | giveUp => exact Lowering.stateless_bind (s.stateless_place hP l (by simp)) fun _ => by simp

end Avr
