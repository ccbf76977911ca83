import Avr.Lowering.Program

namespace Avr

namespace Trace

/-- All that is emitted, up to the end or the first fault, has the property. -/
def Emits (P : Emission → Prop) (t : Trace α) : Prop := ∀ e ∈ t.emitted, P e

/-- The same from every state. -/
def EmitsFrom (P : Emission → Prop) (m : StateT σ Trace α) : Prop := ∀ st, Emits P (m st)

theorem bind_error {x : Trace α} {f : α → Trace β} {e : Located Error} (h : x.outcome = .error e) :
    x >>= f = ⟨x.emitted, x.warnings, .error e⟩ := by
  change bind x f = _
  simp only [bind, h]

theorem bind_ok {x : Trace α} {f : α → Trace β} {a : α} (h : x.outcome = .ok a) :
    x >>= f = ⟨x.emitted ++ (f a).emitted, x.warnings ++ (f a).warnings, (f a).outcome⟩ := by
  change bind x f = _
  simp only [bind, h]

theorem bind_eq_ok {x : Trace α} {f : α → Trace β} {b : β} (h : (x >>= f).outcome = .ok b) :
    ∃ a, x.outcome = .ok a ∧ (f a).outcome = .ok b := by
  cases hx : x.outcome with
  | error e =>
    rw [bind_error hx] at h
    cases h
  | ok a =>
    rw [bind_ok hx] at h
    exact ⟨a, rfl, h⟩

instance : LawfulMonad Trace := LawfulMonad.mk' Trace
  (by
    intro α x
    cases h : x.outcome with
    | error e => exact (bind_error h).trans (by rw [← h])
    | ok a => exact (bind_ok h).trans (by cases x; cases h; simp))
  (by
    intro α β a f
    exact (bind_ok rfl).trans (by simp [pure]))
  (by
    intro α β γ x f g
    cases h : x.outcome with
    | error e => rw [bind_error h, bind_error h, bind_error rfl]
    | ok a =>
      rw [bind_ok h, bind_ok h]
      cases hf : (f a).outcome with
      | error e => rw [bind_error rfl, bind_error hf]
      | ok b => rw [bind_ok rfl, bind_ok hf]; simp)

variable {P : Emission → Prop}

@[simp] theorem emits_pure (a : α) : Emits P (pure a : Trace α) := by
  intro e he
  cases he

@[simp] theorem emits_throw (l : Location) (e : Error) : Emits P (throw l e : Trace α) := by
  intro x hx
  cases hx

@[simp] theorem emits_fail (l : Location) (e : SemanticError) : Emits P (fail l e : Trace α) :=
  emits_throw l _

@[simp] theorem emits_warn (l : Location) (w : Warning) : Emits P (warn l w) := by
  intro x hx
  cases hx

@[simp] theorem emits_emit (e : Emission) : Emits P (emit e) ↔ P e := by
  simp [Emits, emit]

@[simp] theorem emits_require (l : Location) (e : SemanticError) (p : Prop) [Decidable p] :
    Emits P (require l e p) := by
  unfold require
  split <;> simp

@[simp] theorem emits_get (l : Location) (e : SemanticError) (o : Option α) :
    Emits P (get l e o) := by
  cases o <;> simp [get]

/-- A continuation only has to be looked at where the first part comes out well. -/
theorem emits_bind_ok {x : Trace α} {f : α → Trace β} (hx : Emits P x)
    (hf : ∀ a, x.outcome = .ok a → Emits P (f a)) : Emits P (x >>= f) := by
  cases h : x.outcome with
  | error e =>
    rw [bind_error h]
    exact hx
  | ok a =>
    rw [bind_ok h]
    intro e he
    rcases List.mem_append.mp he with he | he
    · exact hx e he
    · exact hf a h e he

@[simp] theorem emits_bind {x : Trace α} {f : α → Trace β} (hx : Emits P x)
    (hf : ∀ a, Emits P (f a)) : Emits P (x >>= f) :=
  emits_bind_ok hx (fun a _ => hf a)

@[simp] theorem emits_map {x : Trace α} (f : α → β) (hx : Emits P x) : Emits P (f <$> x) := by
  rw [map_eq_pure_bind]
  exact emits_bind hx (fun a => emits_pure _)

theorem emits_forM {xs : List α} {f : α → Trace PUnit} (h : ∀ x ∈ xs, Emits P (f x)) :
    Emits P (xs.forM f) := by
  induction xs with
  | nil => exact emits_pure _
  | cons x xs ih => exact emits_bind (h x (by simp)) (fun _ => ih (fun y hy => h y (by simp [hy])))

@[simp] theorem emitsFrom_pure (a : α) : EmitsFrom P (pure a : StateT σ Trace α) :=
  fun _ => emits_pure _

@[simp] theorem emitsFrom_get : EmitsFrom P (MonadState.get : StateT σ Trace σ) :=
  fun _ => emits_pure _

@[simp] theorem emitsFrom_set (st : σ) : EmitsFrom P (set st : StateT σ Trace PUnit) :=
  fun _ => emits_pure _

@[simp] theorem emitsFrom_modify (f : σ → σ) : EmitsFrom P (modify f : StateT σ Trace PUnit) :=
  fun _ => emits_pure _

@[simp] theorem emitsFrom_lift {x : Trace α} (h : Emits P x) :
    EmitsFrom P (liftM x : StateT σ Trace α) :=
  fun _ => emits_bind h (fun _ => emits_pure _)

@[simp] theorem emitsFrom_bind {m : StateT σ Trace α} {f : α → StateT σ Trace β}
    (hm : EmitsFrom P m) (hf : ∀ a, EmitsFrom P (f a)) : EmitsFrom P (m >>= f) :=
  fun st => emits_bind (hm st) (fun p => hf p.1 p.2)

/-- What follows a check may rely on it. -/
theorem emitsFrom_require {l : Location} {e : SemanticError} {p : Prop} [Decidable p]
    {f : PUnit → StateT σ Trace α} (h : p → EmitsFrom P (f ⟨⟩)) :
    EmitsFrom P (liftM (require l e p) >>= f) := by
  by_cases hp : p
  · exact emitsFrom_bind (by simp) (fun _ => h hp)
  · intro st
    have hf : require l e p = fail l e := if_neg hp
    rw [hf]
    exact emits_fail l e

theorem emitsFrom_forM {xs : List α} {f : α → StateT σ Trace PUnit}
    (h : ∀ x ∈ xs, EmitsFrom P (f x)) : EmitsFrom P (xs.forM f) := by
  induction xs with
  | nil => exact emitsFrom_pure _
  | cons x xs ih =>
    exact emitsFrom_bind (h x (by simp)) (fun _ => ih (fun y hy => h y (by simp [hy])))

section

variable {σ : Type} {p : σ}

theorem lift_outcome {x : Trace α} {a : α} {q : σ}
    (h : ((liftM x : StateT σ Trace α) p).outcome = .ok (a, q)) : x.outcome = .ok a ∧ q = p := by
  change (x >>= fun a => pure (a, p)).outcome = _ at h
  cases ho : x.outcome with
  | error e =>
    rw [bind_error ho] at h
    cases h
  | ok b =>
    rw [bind_ok ho] at h
    cases h
    exact ⟨rfl, rfl⟩

theorem bind_outcome {code : StateT σ Trace α} {f : α → StateT σ Trace β} {b : β} {r : σ}
    (h : ((code >>= f) p).outcome = .ok (b, r)) :
    ∃ a q, (code p).outcome = .ok (a, q) ∧ (f a q).outcome = .ok (b, r) := by
  change (code p >>= fun x => f x.1 x.2).outcome = _ at h
  cases ho : (code p).outcome with
  | error e =>
    rw [bind_error ho] at h
    cases h
  | ok x =>
    rw [bind_ok ho] at h
    exact ⟨x.1, x.2, rfl, h⟩

theorem lift_bind_outcome {x : Trace α} {f : α → StateT σ Trace β} {b : β} {r : σ}
    (h : ((liftM x >>= f) p).outcome = .ok (b, r)) :
    ∃ a, x.outcome = .ok a ∧ (f a p).outcome = .ok (b, r) := by
  obtain ⟨a, q, hlift, hrest⟩ := bind_outcome h
  obtain ⟨hx, rfl⟩ := lift_outcome hlift
  exact ⟨a, hx, hrest⟩

end

/-- A fault says nothing about labels. -/
def SparesLabels (t : Trace α) : Prop :=
  ∀ l name, t.outcome ≠ .error ⟨l, .semantic (.labelDefined name)⟩

theorem SparesLabels.bind {x : Trace α} {f : α → Trace β} (hx : x.SparesLabels)
    (hf : ∀ a, x.outcome = .ok a → (f a).SparesLabels) : (x >>= f).SparesLabels := by
  intro l name h
  cases ho : x.outcome with
  | error e =>
    rw [bind_error ho] at h
    cases h
    exact hx l name ho
  | ok a =>
    rw [bind_ok ho] at h
    exact hf a ho l name h

/-- All that is emitted has the property, and a fault says nothing about labels. -/
structure Sends (P : Emission → Prop) (t : Trace α) : Prop where
  emits : Emits P t
  fault : t.SparesLabels

@[simp] theorem sends_pure (a : α) : Sends P (pure a : Trace α) :=
  ⟨emits_pure a, fun _ _ h => by cases h⟩

theorem sends_throw {l : Location} {e : Error} (h : ∀ name, e ≠ .semantic (.labelDefined name)) :
    Sends P (throw l e : Trace α) :=
  ⟨emits_throw l e, fun l name he => by cases he; exact h name rfl⟩

@[simp] theorem sends_fail {l : Location} {e : SemanticError} :
    Sends P (fail l e : Trace α) ↔ ∀ name, e ≠ .labelDefined name := by
  constructor
  · intro h name he
    exact h.fault l name (by rw [he]; rfl)
  · intro h
    exact sends_throw fun name he => h name (by cases he; rfl)

@[simp] theorem sends_warn (l : Location) (w : Warning) : Sends P (warn l w) :=
  ⟨emits_warn l w, fun _ _ h => by cases h⟩

@[simp] theorem sends_emit {e : Emission} : Sends P (emit e) ↔ P e :=
  ⟨fun h => (emits_emit e).mp h.emits, fun h => ⟨(emits_emit e).mpr h, fun _ _ h => by cases h⟩⟩

@[simp] theorem sends_require {l : Location} {e : SemanticError} {p : Prop} [Decidable p] :
    Sends P (require l e p) ↔ (¬ p → ∀ name, e ≠ .labelDefined name) := by
  unfold require
  split <;> simp_all

@[simp] theorem sends_get {l : Location} {e : SemanticError} {o : Option α} :
    Sends P (get l e o) ↔ (o = none → ∀ name, e ≠ .labelDefined name) := by
  cases o <;> simp [get]

@[simp] theorem sends_bind {x : Trace α} {f : α → Trace β} (hx : Sends P x)
    (hf : ∀ a, Sends P (f a)) : Sends P (x >>= f) :=
  ⟨emits_bind hx.emits fun a => (hf a).emits, hx.fault.bind fun a _ => (hf a).fault⟩

@[simp] theorem sends_map {x : Trace α} (f : α → β) (hx : Sends P x) : Sends P (f <$> x) := by
  rw [map_eq_pure_bind]
  exact sends_bind hx fun a => sends_pure _

theorem sends_mapM {xs : List α} {f : α → Trace β} (h : ∀ x ∈ xs, Sends P (f x)) :
    Sends P (xs.mapM f) := by
  induction xs with
  | nil => exact sends_pure _
  | cons x xs ih =>
    rw [List.mapM_cons]
    refine sends_bind (h x (by simp)) fun y => ?_
    exact sends_bind (ih fun z hz => h z (by simp [hz])) fun _ => sends_pure _

/-- The size of the code between two probes. Its bytes are left to the assembler. -/
def checkLimit (maxInstructions maxBytes : Nat) (l : Location) (probe found : Nat) :
    Trace Unit := do
  let start := "?probe" ++ toString probe ++ "_start"
  let stop := "?probe" ++ toString probe ++ "_end"
  emit (.limit ⟨start, stop, maxBytes, l⟩)
  if found ≤ maxInstructions then return
  else if maxInstructions = 1 then throw l (.budget (.singleInstruction found))
  else throw l (.budget (.tooManyInstructions maxInstructions found))

end Trace

theorem Lowering.limited_eq (maxInstructions maxBytes : Nat) (l : Location) (body : Lowering α)
    (p : Progress) :
    limited maxInstructions maxBytes l body p = (do
      let inner := { p with probes := p.probes + 1 }
      Trace.define l ("?probe" ++ toString p.probes ++ "_start")
      let x ← body inner
      Trace.define l ("?probe" ++ toString p.probes ++ "_end")
      Trace.checkLimit maxInstructions maxBytes l p.probes
        ((body inner).emitted.countP Emission.isInstruction)
      pure x) := by
  unfold limited Trace.checkLimit
  by_cases hfound : (body { p with probes := p.probes + 1 }).emitted.countP Emission.isInstruction ≤
      maxInstructions
  · simp only [hfound, if_true, bind_assoc, pure_bind]
  · simp only [hfound, if_false, bind_assoc]
    split
    · rfl
    · rfl

namespace Value

open Trace

variable {P : Emission → Prop}

@[simp] theorem misuse_ne (v : Value) (name : String) : v.misuse ≠ .labelDefined name := by
  cases v <;> simp [misuse]

@[simp] theorem sends_constant (l : Location) (v : Value) : Sends P (v.constant l) := by
  unfold constant
  split <;> simp

@[simp] theorem sends_registers (l : Location) (v : Value) : Sends P (v.registers l) := by
  unfold registers
  split <;> simp

@[simp] theorem sends_bitNumber (l : Location) (v : Value) : Sends P (v.bitNumber l) := by
  simp [bitNumber]

@[simp] theorem sends_ofBinary (l : Location) (op : BinaryOp) (a b : Value) :
    Sends P (ofBinary l op a b) := by
  unfold ofBinary
  split <;> simp

end Value

namespace Names

open Trace

variable {P : Emission → Prop} {n : Names} {follow : String → Located Expr → Trace Value}

theorem sends_value (hf : ∀ name e, Sends P (follow name e)) (l : Location) (name : String) :
    Sends P (n.value follow l name) := by
  unfold value
  split
  · simp
  · split
    · exact hf _ _
    · simp

@[simp] theorem sends_pinBit (bl ml : Location) (pin : Pin) (member : Option String) :
    Sends P (n.pinBit bl ml pin member) := by
  simp [pinBit]

@[simp] theorem sends_memberBit (l : Location) (port : Port) (name : String) :
    Sends P (n.memberBit l port name) := by
  simp [memberBit]

@[simp] theorem sends_sizeOfVariable (l : Location) (e : Expr) :
    Sends P (n.sizeOfVariable l e) := by
  unfold sizeOfVariable
  split <;> simp

@[simp] theorem sends_maskWith (l : Location) (mask : Int32) (bit : Nat) :
    Sends P (maskWith l mask bit) := by
  simp only [maskWith]
  split <;> simp

mutual

theorem sends_eval (hf : ∀ name e, Sends P (follow name e)) (l : Location) (e : Expr) :
    Sends P (n.eval follow l e) := by
  match e with
  | .number k => simp [eval]
  | .char c => simp [eval]
  | .str s => simp [eval]
  | .ident name => simpa only [eval] using sends_value hf l name
  | .register name => simp [eval]
  | .group items =>
    have := sends_evalRegisters hf items
    simp [eval, this]
  | .binary op ⟨al, a⟩ ⟨bl, b⟩ =>
    have ha := sends_eval hf al a
    have hb := sends_eval hf bl b
    simp [eval, ha, hb]
  | .unary op ⟨il, i⟩ =>
    have := sends_eval hf il i
    simp [eval, this]
  | .suffix op ⟨il, i⟩ =>
    have := sends_eval hf il i
    simp [eval, this]
  | .assign op ⟨tl, t⟩ ⟨vl, v⟩ =>
    have ht := sends_eval hf tl t
    have hv := sends_eval hf vl v
    simp [eval, ht, hv]
  | .arrow ⟨bl, b⟩ ⟨ml, m⟩ =>
    have hb := sends_eval hf bl b
    have hm := sends_eval hf ml m
    simp only [eval]
    split
    · simp
    · refine sends_bind hb (fun v => ?_)
      split
      · split <;> simp [hm]
      · simp
  | .index ⟨bl, b⟩ ⟨il, i⟩ =>
    have hb := sends_eval hf bl b
    have hi := sends_eval hf il i
    have ha := sends_evalAddress hf il i (fun _ => hi)
    unfold eval
    split
    · simp [ha]
    · simp [ha]
    · refine sends_bind hb (fun v => ?_)
      split
      · split <;> simp [hi]
      · simp [hi]
      · refine sends_bind hi (fun j => sends_bind (by simp) (fun k => ?_))
        split <;> simp
      · simp
  | .call ⟨name, args⟩ =>
    unfold eval
    split
    · match args with
      | [⟨_, ⟨al, a⟩⟩] =>
        have := sends_eval hf al a
        simp [this]
      | [] | _ :: _ :: _ => simp
    · match args with
      | [⟨_, ⟨al, a⟩⟩] =>
        have := sends_eval hf al a
        simp [this]
      | [] | _ :: _ :: _ => simp
    · match args with
      | [⟨_, ⟨al, a⟩⟩] => simp
      | [] | _ :: _ :: _ => simp
    · split
      · simp
      · simp [sends_evalBits hf args none 0]
    · simp
  | .signed ⟨il, i⟩ =>
    have := sends_eval hf il i
    simp [eval, this]
termination_by structural e

theorem sends_evalAddress (hf : ∀ name e, Sends P (follow name e)) (l : Location) (e : Expr)
    {whole : Unit → Trace Value} (hw : ∀ u, Sends P (whole u)) :
    Sends P (n.evalAddress follow l e whole) := by
  match e with
  | .suffix op ⟨il, i⟩ =>
    have := sends_eval hf il i
    cases op <;> simp [evalAddress, this, hw]
  | .unary op ⟨il, i⟩ =>
    have := sends_eval hf il i
    unfold evalAddress
    split <;> simp_all
  | .binary op ⟨al, a⟩ ⟨bl, b⟩ =>
    have ha := sends_eval hf al a
    have hb := sends_eval hf bl b
    unfold evalAddress
    split <;> simp_all
  | .number _ | .char _ | .str _ | .ident _ | .register _ | .group _ | .assign .. | .arrow ..
  | .index .. | .call _ | .signed _ => simp [evalAddress, hw]
termination_by structural e

theorem sends_evalRegisters (hf : ∀ name e, Sends P (follow name e))
    (items : List (Located Expr)) : Sends P (n.evalRegisters follow items) := by
  match items with
  | [] => simp [evalRegisters]
  | ⟨l, e⟩ :: rest =>
    have he := sends_eval hf l e
    have hr := sends_evalRegisters hf rest
    simp only [evalRegisters]
    exact sends_bind he (fun v => by simp [hr])
termination_by structural items

theorem sends_evalBits (hf : ∀ name e, Sends P (follow name e)) (args : List (Argument Expr))
    (last : Option IoRegister) (mask : Int32) : Sends P (n.evalBits follow args last mask) := by
  match args with
  | [] => simp [evalBits]
  | ⟨_, ⟨l, e⟩⟩ :: rest =>
    have he := sends_eval hf l e
    simp only [evalBits]
    split
    · refine sends_bind (by simp) (fun p => sends_bind (by simp) (fun m => ?_))
      exact sends_evalBits hf rest _ m
    · refine sends_bind he (fun v => sends_bind (by simp) (fun b => ?_))
      refine sends_bind (by simp) (fun m => ?_)
      exact sends_evalBits hf rest _ m
termination_by structural args

end

theorem sends_followUpTo (k : Nat) (name : String) (e : Located Expr) :
    Sends P (n.followUpTo k name e) := by
  induction k generalizing name e with
  | zero => simp [followUpTo]
  | succ k ih => exact sends_eval ih _ _

@[simp] theorem sends_resolve (e : Located Expr) : Sends P (n.resolve e) :=
  sends_eval (sends_followUpTo _) _ _

@[simp] theorem sends_constant (e : Located Expr) : Sends P (n.constant e) := by
  simp [constant]

theorem sends_dataItem (width : DataWidth) (e : Located Expr) : Sends P (n.dataItem width e) := by
  unfold dataItem
  split
  · split <;> simp
  · simp
  · refine sends_bind (by simp) fun v => sends_bind (by simp) fun a => ?_
    split
    · split <;> simp
    · simp

@[simp] theorem sends_dataRow (block : DataBlock) : Sends P (n.dataRow block) :=
  sends_bind (sends_mapM fun e _ => sends_dataItem _ e) fun _ => sends_pure _

@[simp] theorem emits_resolve (e : Located Expr) : Emits P (n.resolve e) := (sends_resolve e).emits

@[simp] theorem emits_constant (e : Located Expr) : Emits P (n.constant e) :=
  (sends_constant e).emits

@[simp] theorem emits_dataRow (block : DataBlock) : Emits P (n.dataRow block) :=
  (sends_dataRow block).emits

end Names

end Avr
