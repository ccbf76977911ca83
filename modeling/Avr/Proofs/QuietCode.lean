import Avr.Proofs.StatelessCode

namespace Avr

/-- The name that is defined. -/
def Emission.label? : Emission → Option String
  | label n => some n.value
  | _ => none

namespace Trace

/-- The labels that are defined, up to the end or the first fault. -/
def labels (t : Trace α) : List String := t.emitted.filterMap Emission.label?

/-- Has no label in it. -/
structure Quiet (t : Trace α) : Prop where
  labels : t.labels = []
  fault : t.SparesLabels

theorem labels_bind_error {x : Trace α} {f : α → Trace β} {e : Located Error}
    (h : x.outcome = .error e) : (x >>= f).labels = x.labels := by
  simp [labels, bind_error h]

theorem labels_bind_ok {x : Trace α} {f : α → Trace β} {a : α} (h : x.outcome = .ok a) :
    (x >>= f).labels = x.labels ++ (f a).labels := by
  simp [labels, bind_ok h]

theorem quiet_iff {t : Trace α} : t.Quiet ↔ Sends (fun e => e.label? = none) t := by
  constructor
  · intro h
    exact ⟨List.filterMap_eq_nil_iff.mp h.labels, h.fault⟩
  · intro h
    exact ⟨List.filterMap_eq_nil_iff.mpr h.emits, h.fault⟩

@[simp] theorem quiet_pure (a : α) : (pure a : Trace α).Quiet := quiet_iff.mpr (sends_pure a)

theorem quiet_throw {l : Location} {e : Error} (h : ∀ name, e ≠ .semantic (.labelDefined name)) :
    (throw l e : Trace α).Quiet :=
  quiet_iff.mpr (sends_throw h)

@[simp] theorem quiet_fail {l : Location} {e : SemanticError} :
    (fail l e : Trace α).Quiet ↔ ∀ name, e ≠ .labelDefined name :=
  quiet_iff.trans sends_fail

@[simp] theorem quiet_warn (l : Location) (w : Warning) : (warn l w).Quiet :=
  quiet_iff.mpr (sends_warn l w)

@[simp] theorem quiet_emit {e : Emission} : (emit e).Quiet ↔ e.label? = none :=
  quiet_iff.trans sends_emit

@[simp] theorem quiet_bind {x : Trace α} {f : α → Trace β} (hx : x.Quiet) (hf : ∀ a, (f a).Quiet) :
    (x >>= f).Quiet :=
  quiet_iff.mpr (sends_bind (quiet_iff.mp hx) fun a => quiet_iff.mp (hf a))

@[simp] theorem quiet_require {l : Location} {e : SemanticError} {p : Prop} [Decidable p] :
    (require l e p).Quiet ↔ (¬ p → ∀ name, e ≠ .labelDefined name) :=
  quiet_iff.trans sends_require

@[simp] theorem quiet_get {l : Location} {e : SemanticError} {o : Option α} :
    (get l e o).Quiet ↔ (o = none → ∀ name, e ≠ .labelDefined name) :=
  quiet_iff.trans sends_get

theorem quiet_forM {xs : List α} {f : α → Trace PUnit} (h : ∀ x ∈ xs, (f x).Quiet) :
    (xs.forM f).Quiet := by
  induction xs with
  | nil => exact quiet_pure _
  | cons x xs ih =>
    exact quiet_bind (h x (by simp)) fun _ => ih fun y hy => h y (by simp [hy])

/-- Selected code has instructions only. -/
theorem quiet_place {comment : Option String} {l : Location} {s : Selection}
    (h : s.SparesLabels) : (place comment l s).Quiet :=
  quiet_iff.mpr (sends_place (fun _ => rfl) h)

end Trace

namespace Names

variable {n : Names}

@[simp] theorem quiet_constant (e : Located Expr) : (n.constant e).Quiet :=
  Trace.quiet_iff.mpr (sends_constant e)

@[simp] theorem quiet_dataRow (block : DataBlock) : (n.dataRow block).Quiet :=
  Trace.quiet_iff.mpr (sends_dataRow block)

end Names

namespace Trace

variable {σ τ : Type} {view : σ → τ} {p : σ}

/-- From this state the code has no label in it, and what is seen of the state stays as it was. -/
structure QuietAt (view : σ → τ) (code : StateT σ Trace α) (p : σ) : Prop where
  quiet : (code p).Quiet
  keeps : ∀ a q, (code p).outcome = .ok (a, q) → view q = view p

/-- The same from every state. -/
def QuietFrom (view : σ → τ) (code : StateT σ Trace α) : Prop := ∀ p, QuietAt view code p

theorem quietAt_bind {code : StateT σ Trace α} {f : α → StateT σ Trace β}
    (h : QuietAt view code p)
    (hf : ∀ a q, (code p).outcome = .ok (a, q) → QuietAt view (f a) q) :
    QuietAt view (code >>= f) p := by
  cases ho : (code p).outcome with
  | error e =>
    have hrun : (code >>= f) p = ⟨(code p).emitted, (code p).warnings, .error e⟩ := bind_error ho
    refine ⟨⟨?_, ?_⟩, ?_⟩
    · rw [hrun]
      exact h.quiet.labels
    · intro l name he
      rw [hrun] at he
      cases he
      exact h.quiet.fault l name ho
    · intro a q hq
      rw [hrun] at hq
      cases hq
  | ok x =>
    obtain ⟨a, q⟩ := x
    have hrest := hf a q ho
    have hrun : (code >>= f) p = ⟨(code p).emitted ++ (f a q).emitted,
      (code p).warnings ++ (f a q).warnings, (f a q).outcome⟩ := bind_ok ho
    refine ⟨⟨?_, ?_⟩, ?_⟩
    · rw [hrun]
      change List.filterMap _ _ = _
      rw [List.filterMap_append]
      exact List.append_eq_nil_iff.mpr ⟨h.quiet.labels, hrest.quiet.labels⟩
    · rw [hrun]
      exact hrest.quiet.fault
    · intro b r hr
      rw [hrun] at hr
      rw [hrest.keeps b r hr, h.keeps a q ho]

@[simp] theorem quietAt_pure (a : α) : QuietAt view (pure a : StateT σ Trace α) p :=
  ⟨quiet_pure _, fun _ _ h => by cases h; rfl⟩

theorem quietAt_set {q : σ} (h : view q = view p) :
    QuietAt view (set q : StateT σ Trace PUnit) p :=
  ⟨quiet_pure _, fun _ _ hq => by cases hq; exact h⟩

theorem quietAt_modify {f : σ → σ} (h : view (f p) = view p) :
    QuietAt view (modify f : StateT σ Trace PUnit) p :=
  ⟨quiet_pure _, fun _ _ hq => by cases hq; exact h⟩

theorem quietAt_get_bind {f : σ → StateT σ Trace α} (h : QuietAt view (f p) p) :
    QuietAt view (MonadState.get >>= f) p :=
  quietAt_bind ⟨quiet_pure _, fun _ _ hq => by cases hq; rfl⟩ fun _ _ hq => by cases hq; exact h

theorem quietAt_lift {x : Trace α} (h : x.Quiet) : QuietAt view (liftM x : StateT σ Trace α) p :=
  ⟨quiet_bind h fun _ => quiet_pure _, fun _ _ hq => by rw [(lift_outcome hq).2]⟩

/-- What needs no state leaves it alone. -/
theorem quietAt_lift_bind {x : Trace α} {f : α → StateT σ Trace β} (h : x.Quiet)
    (hf : ∀ a, QuietAt view (f a) p) : QuietAt view (liftM x >>= f) p := by
  refine quietAt_bind (quietAt_lift h) fun a q hq => ?_
  rw [(lift_outcome hq).2]
  exact hf a

@[simp] theorem quietFrom_pure (a : α) : QuietFrom view (pure a : StateT σ Trace α) :=
  fun _ => quietAt_pure a

@[simp] theorem quietFrom_get : QuietFrom view (MonadState.get : StateT σ Trace σ) :=
  fun _ => ⟨quiet_pure _, fun _ _ hq => by cases hq; rfl⟩

@[simp] theorem quietFrom_lift {x : Trace α} (h : x.Quiet) :
    QuietFrom view (liftM x : StateT σ Trace α) :=
  fun _ => quietAt_lift h

@[simp] theorem quietFrom_bind {code : StateT σ Trace α} {f : α → StateT σ Trace β}
    (h : QuietFrom view code) (hf : ∀ a, QuietFrom view (f a)) : QuietFrom view (code >>= f) :=
  fun p => quietAt_bind (h p) fun a q _ => hf a q

theorem quietFrom_forM {xs : List α} {f : α → StateT σ Trace PUnit}
    (h : ∀ x ∈ xs, QuietFrom view (f x)) : QuietFrom view (xs.forM f) := by
  induction xs with
  | nil => exact quietFrom_pure _
  | cons x xs ih =>
    exact quietFrom_bind (h x (by simp)) fun _ => ih fun y hy => h y (by simp [hy])

end Trace

open Trace

/-- Code of a procedure that has no label of its own. -/
abbrev Lowering.Quiet (code : Lowering α) : Prop := QuietFrom Progress.toCounters code

/-- Plain code has none. -/
theorem Lowering.Stateless.quiet {code : Lowering α} (h : code.Stateless Emission.IsCode) :
    code.Quiet := by
  obtain ⟨f, hcode, hf⟩ := h
  intro p
  have hlabel (e : Emission) (he : e.IsCode) : e.label? = none := by
    cases e with
    | label name => cases he
    | _ => rfl
  have hlift : QuietAt Progress.toCounters (liftM (f p.aliases) : Lowering α) p :=
    quietAt_lift (quiet_iff.mpr ⟨fun e he => hlabel e ((hf _).emits e he), (hf _).fault⟩)
  exact ⟨by rw [hcode]; exact hlift.quiet, by rw [hcode]; exact hlift.keeps⟩

namespace Scope

variable (s : Scope)

theorem quiet_place (l : Location) {code : Selection} (h : code.SparesLabels) :
    Lowering.Quiet (s.place l code) :=
  (s.stateless_place (fun _ => trivial) l h).quiet

theorem quiet_bindArguments (p : Procedure) (call : Call Expr) (l : Location) :
    Lowering.Quiet (s.bindArguments p call l) :=
  (s.stateless_bindArguments (fun _ => trivial) p call l).quiet

theorem quiet_use (a : Alias) : Lowering.Quiet (s.use a) := by
  intro p
  refine quietAt_get_bind (quietAt_lift_bind (by simp) fun _ => ?_)
  refine quietAt_bind (quietAt_set rfl) fun _ q _ => ?_
  split
  · exact quietAt_lift (by simp)
  · simp

theorem quiet_inlineProcedure (l : Location) (name : String) :
    (s.inlineProcedure l name).Quiet := by
  unfold inlineProcedure
  split
  · split
    · simp
    · split <;> simp
  · split <;> simp

end Scope

end Avr
