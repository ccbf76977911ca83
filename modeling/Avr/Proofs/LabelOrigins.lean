import Avr.Proofs.Alignment
import Avr.Proofs.LabelTally

namespace Avr

open Trace

namespace Mark

/-- Named by the program. Labels of a body bear the name of a procedure that has code of its own,
even where the body is that of another. -/
def IsFrom (p : Program) : Mark → Prop
  | global name => name ∈ p.globalNames
  | inner stem name =>
    stem.procedure ∈ p.standing.map (·.name.value) ∧ name ∈ p.procedures.flatMap Procedure.inners
  | construct stem _ _ _ => stem.procedure ∈ p.standing.map (·.name.value)
  | probe _ _ => True

end Mark

namespace Emission

/-- A label, if it is one, that the program names. -/
def IsFrom (p : Program) (e : Emission) : Prop :=
  ∀ n ∈ e.label?, ∃ m : Mark, m.IsFrom p ∧ m.text = n

end Emission

/-- From every state, all labels of the code are named by the program. -/
abbrev Lowering.Named (p : Program) (code : Lowering α) : Prop := EmitsFrom (Emission.IsFrom p) code

section Origins

variable {p : Program}

theorem emits_of_quiet {x : Trace α} (h : x.Quiet) : Emits (Emission.IsFrom p) x := by
  intro e he n hn
  rw [(quiet_iff.mp h).emits e he] at hn
  cases hn

theorem isFrom_admits (p : Program) : Emission.Admits (Emission.IsFrom p) (Mark.IsFrom p) where
  code e he n hn := by
    cases e with
    | label name => cases he
    | _ => cases hn
  limit l n hn := by cases hn
  label l m hm n hn := by
    cases hn
    exact ⟨m, hm, rfl⟩
  probe _ _ := trivial

/-- A procedure that has code of its own knows its labels, and those of what is expanded in it. -/
theorem isFrom_admitsBody {name : String} (hname : name ∈ p.standing.map (·.name.value)) :
    Emission.AdmitsBody (Emission.IsFrom p) (Mark.IsFrom p) p.procedures name where
  toAdmits := isFrom_admits p
  construct s hs _ _ _ := by
    change s.procedure ∈ _
    rwa [hs]
  expanded s hs q hq o ho m hm := by
    cases o with
    | globalLabel name =>
      cases hm
      refine List.mem_append_right _ (List.mem_flatMap.mpr ⟨q, hq, ?_⟩)
      exact List.mem_filterMap.mpr ⟨_, ho, rfl⟩
    | innerLabel name =>
      cases hm
      refine ⟨by rwa [hs], List.mem_flatMap.mpr ⟨q, hq, ?_⟩⟩
      exact List.mem_filterMap.mpr ⟨_, ho, rfl⟩
    | construct c line => cases hm
    | call name => cases hm

end Origins

namespace Build

variable {p : Program} {b : Build}

/-- From this state, all labels of the code are named by the program, and its procedures stay
known. -/
structure NamedAt (p : Program) (code : Building α) (b : Build) : Prop where
  emits : Emits (Emission.IsFrom p) (code b)
  keeps : ∀ a c, (code b).outcome = .ok (a, c) → c.globals.procedures = p.procedures

theorem NamedAt.bind {code : Building α} {f : α → Building β} (h : NamedAt p code b)
    (hf : ∀ a c, c.globals.procedures = p.procedures → NamedAt p (f a) c) :
    NamedAt p (code >>= f) b where
  emits := emits_bind_ok h.emits fun x hx => (hf x.1 x.2 (h.keeps _ _ hx)).emits
  keeps := by
    intro a c hc
    obtain ⟨x, d, hd, hc⟩ := bind_outcome hc
    exact (hf x d (h.keeps x d hd)).keeps a c hc

theorem namedAt_of_quiet {code : Building α} (h : Quiet code)
    (hb : b.globals.procedures = p.procedures) : NamedAt p code b where
  emits := emits_of_quiet (h b).quiet
  keeps := fun a c hc => (kept_eq hb c ((h b).keeps a c hc)).2

theorem namedAt_define (hb : b.globals.procedures = p.procedures) (l : Location) {name : String}
    (hname : name ∈ p.globalNames) : NamedAt p (liftM (define l name) : Building Unit) b where
  emits := by
    have hlabel := (isFrom_admits p).define l (m := .global name) hname (Mark.text_global name).symm
    exact emits_bind hlabel fun _ => emits_pure _
  keeps := by
    intro a c hc
    rw [(lift_outcome hc).2, hb]

theorem namedAt_counting (hb : b.globals.procedures = p.procedures)
    {part : Globals → Lowering Unit} (h : (part b.globals).Named p) :
    NamedAt p (counting part) b where
  emits := by
    rw [counting_eq]
    exact emits_bind (h _) fun _ => emits_pure _
  keeps := by
    intro a c hc
    rw [counting_eq] at hc
    cases ho : (part b.globals ⟨b.counters, []⟩).outcome with
    | error e =>
      rw [bind_error ho] at hc
      cases hc
    | ok x =>
      rw [bind_ok ho] at hc
      cases hc
      exact hb

theorem namedAt_procedure (hb : b.globals.procedures = p.procedures) {q : Procedure}
    (hq : q ∈ p.procedures) : NamedAt p (procedure q) b := by
  rw [procedure]
  split
  · exact namedAt_of_quiet quiet_rejectOrigin hb
  · next hinline =>
    have hname : q.name.value ∈ p.standing.map (·.name.value) :=
      List.mem_map.mpr ⟨q, List.mem_filter.mpr ⟨hq, by simpa using hinline⟩, rfl⟩
    have hglobal : q.name.value ∈ p.globalNames :=
      List.mem_append_left _ (List.mem_append_right _ hname)
    refine (namedAt_of_quiet quiet_placeCode hb).bind fun _ c hc => ?_
    refine (namedAt_define hc _ hglobal).bind fun _ d hd => ?_
    refine (namedAt_of_quiet (quietFrom_lift (by simp [Emission.label?])) hd).bind fun _ e he => ?_
    have hstands : Scope.Stands { globals := e.globals, procedure := some q } p.procedures
        ⟨q.name.value, []⟩ [] :=
      ⟨he, by simp [Scope.stem, Stem.text], rfl⟩
    have hknown := isFrom_admitsBody hname
    refine namedAt_counting he (Scope.emitsFrom_lowerAll hknown _ hstands ?_)
    exact hknown.expanded ⟨q.name.value, []⟩ rfl q hq

theorem namedAt_item (hb : b.globals.procedures = p.procedures) {i : Located Item}
    (hi : i ∈ p.items) : NamedAt p (item i) b := by
  obtain ⟨l, i⟩ := i
  cases i with
  | directive name args => exact namedAt_of_quiet (quiet_directive name args) hb
  | procedure q => exact namedAt_procedure hb (List.mem_filterMap.mpr ⟨_, hi, rfl⟩)
  | externalProcedure q => exact namedAt_of_quiet quiet_rejectOrigin hb
  | var decl => exact namedAt_of_quiet (quiet_declareVariable decl) hb
  | externalVar decl => exact namedAt_of_quiet (quiet_declareExternal decl) hb
  | pin name target => exact namedAt_of_quiet (quiet_declarePin name target) hb
  | use a => exact namedAt_of_quiet (quiet_declareAlias a) hb
  | label name =>
    have hname : name ∈ p.labels := List.mem_filterMap.mpr ⟨_, hi, rfl⟩
    refine (namedAt_of_quiet quiet_placeCode hb).bind fun _ c hc => namedAt_define hc l ?_
    exact List.mem_append_left _ (List.mem_append_left _ hname)
  | data block => exact namedAt_of_quiet (quiet_data l block) hb

theorem namedAt_items {items : List (Located Item)} (hb : b.globals.procedures = p.procedures)
    (hitems : ∀ i ∈ items, i ∈ p.items) : NamedAt p (items.forM item) b := by
  induction items generalizing b with
  | nil => exact namedAt_of_quiet (quietFrom_pure _) hb
  | cons i items ih =>
    obtain ⟨hi, hitems⟩ := List.forall_mem_cons.mp hitems
    exact (namedAt_item hb hi).bind fun _ c hc => ih hc hitems

/-- All procedures are known before anything else is lowered. -/
theorem namedAt_program (p : Program) (device : Device) (links : Bool) :
    NamedAt p (program p) { globals := { device }, links } := by
  have hdeclared : NamedAt p (declareProcedures p.items) { globals := { device }, links } := by
    refine ⟨emits_of_quiet (quiet_declareProcedures p.items _).quiet, ?_⟩
    intro _ c hc
    obtain ⟨rfl, -⟩ := declareProcedures_ok hc
    exact List.nil_append _
  refine hdeclared.bind fun _ b hb => ?_
  have hitems {b : Build} (hb : b.globals.procedures = p.procedures) :
      NamedAt p (do p.items.forM item; rejectOrigin) b :=
    (namedAt_items hb fun _ hi => hi).bind fun _ _ hc => namedAt_of_quiet quiet_rejectOrigin hc
  split
  · next table _ =>
    have hvectors (g : Globals) := g.emitsFrom_vectors (isFrom_admits p) table
    exact (namedAt_counting hb (hvectors _)).bind fun _ _ hc => hitems hc
  · exact hitems hb

end Build

/-- Every label that a program lowers to is named by the program. -/
theorem Program.lower_isFrom (p : Program) (device : Device) (links : Bool) :
    Emits (Emission.IsFrom p) (p.lower device links) :=
  emits_map _ (Build.namedAt_program p device links).emits

theorem Layout.label_of_accepts {l : Layout} {e : Emission} {n : String}
    (h : n ∈ l.accepts e) : n ∈ e.label? := by
  cases e with
  | label name =>
    rw [accepts] at h
    split at h
    · exact h
    · cases h
  | _ => cases h

/-- So is every label of a compiled program. -/
theorem compile_labels_isFrom {device : Device} {program : Program} {formats : List Format}
    {options : OutputOptions} {c : Compiled}
    (h : compile device program (.ofFormats formats options) = .ok c) :
    ∀ n ∈ c.outputs.layout.labels.map Prod.fst, ∃ m : Mark, m.IsFrom program ∧ m.text = n := by
  refine Outputs.emitAll_keeps
    (Q := fun l => ∀ n ∈ l.labels.map Prod.fst, ∃ m : Mark, m.IsFrom program ∧ m.text = n)
    ?_ (by intro n hn; cases hn) (compile_emitAll h)
  intro e he l m hl hm n hn
  have hnames := l.names_attempt e
  rw [Layout.attempt, hm] at hnames
  rw [hnames] at hn
  rcases List.mem_append.mp hn with hn | hn
  · exact program.lower_isFrom _ _ e he n (Layout.label_of_accepts (Option.mem_toList.mp hn))
  · exact hl n hn

end Avr
