import Avr.Proofs.StatementRules

namespace Avr

open Trace

namespace Emission

/-- Laid down at the current address. -/
def InPlace : Emission → Prop
  | org _ | declare .. => False
  | _ => True

/-- Goes on at another address. -/
def isOrg : Emission → Bool
  | org _ => true
  | _ => false

theorem InPlace.isOrg_eq {e : Emission} (h : e.InPlace) : e.isOrg = false := by
  cases e with
  | org origin => exact absurd h id
  | _ => rfl

/-- Holds of all that lowering emits without leaving its place, if the labels are known ones. -/
structure Admits (P : Emission → Prop) (known : Mark → Prop) : Prop where
  code : ∀ e, IsCode e → P e
  limit : ∀ l, P (limit l)
  label : ∀ l m, known m → P (label ⟨l, m.text⟩)
  probe : ∀ n stops, known (.probe n stops)

/-- Knows all labels of a procedure of this name, and of what is expanded in it. -/
structure AdmitsBody (P : Emission → Prop) (known : Mark → Prop) (ps : List Procedure)
    (name : String) : Prop extends Admits P known where
  construct : ∀ s : Stem, s.procedure = name → ∀ kind line way, known (.construct s kind line way)
  expanded : ∀ s : Stem, s.procedure = name → ∀ q ∈ ps, ∀ o ∈ q.occurrences, ∀ m ∈ o.mark? s,
    known m

theorem inPlace_admits (ps : List Procedure) (name : String) :
    AdmitsBody InPlace (fun _ => True) ps name where
  code e he := by
    cases e with
    | instruction i | data d => trivial
    | _ => cases he
  limit _ := trivial
  label _ _ _ := trivial
  probe _ _ := trivial
  construct _ _ _ _ _ := trivial
  expanded _ _ _ _ _ _ _ _ := trivial

section

variable {P : Emission → Prop} {known : Mark → Prop}

theorem Admits.stateless (h : Admits P known) {code : Lowering α}
    (hcode : code.Stateless IsCode) : EmitsFrom P code :=
  fun p e he => h.code e (hcode.emitsFrom p e he)

theorem Admits.define (h : Admits P known) (l : Location) {m : Mark} (hm : known m)
    {text : String} (htext : text = m.text) : Emits P (Trace.define l text) := by
  rw [htext]
  exact (emits_emit _).mpr (h.label l m hm)

/-- A part under a limit stands between two probes. -/
theorem Admits.limited (h : Admits P known) {body : Lowering α} (hbody : EmitsFrom P body)
    (maxInstructions maxBytes : Nat) (l : Location) :
    EmitsFrom P (Lowering.limited maxInstructions maxBytes l body) := by
  intro st
  have hdefine (stops : Bool) := h.define l (h.probe st.probes stops) (Mark.text_probe _ _).symm
  refine emits_bind (hdefine false) fun _ => emits_bind (hbody _) fun p => ?_
  refine emits_bind (hdefine true) fun _ => emits_bind (by simp [h.limit]) fun _ => ?_
  split
  · exact emits_pure _
  · split <;> exact emits_throw _ _

variable {ps : List Procedure} {s : Stem} {sc : Scope}

/-- The labels of a condition are named by the construct that it stands in. -/
theorem AdmitsBody.gotoIf (h : AdmitsBody P known ps s.procedure) (hs : sc.stem = s.text)
    (l : Location) (kind : Kind) (truth : Bool) (v : Value) (target : LabelRef) :
    EmitsFrom P (sc.gotoIf l truth v target (sc.generated kind.text l)) := by
  refine emitsFrom_forM fun t ht => ?_
  cases t with
  | jump code =>
    exact h.stateless (sc.stateless_place (fun _ => trivial) l (Test.sparesLabels_jumps ht))
  | label name =>
    have hname := List.mem_filterMap.mpr ⟨_, ht, (rfl : Test.label? (.label name) = some name)⟩
    rw [Test.labels_jumps, Scope.generated_text hs] at hname
    obtain ⟨way, _, rfl⟩ := List.mem_map.mp hname
    exact emitsFrom_lift (h.define l (h.construct s rfl kind l.start.line way)
      (Mark.text_follow s kind l.start.line [] way))

theorem AdmitsBody.rules (h : AdmitsBody P known ps s.procedure) :
    StatementRules s fun _ _ os _ code =>
      (∀ o ∈ os, ∀ m ∈ o.mark? s, known m) → EmitsFrom P code where
  plain hcode _ := h.stateless hcode
  use sc a _ := by
    refine emitsFrom_bind (by simp) fun st => emitsFrom_bind (by simp) fun _ => ?_
    refine emitsFrom_bind (by simp) fun _ => ?_
    split <;> simp
  bind hcode hf ho := by
    rw [List.forall_mem_append] at ho
    exact emitsFrom_bind (hcode ho.1) fun a => hf a ho.2
  limited maxInstructions maxBytes l hbody ho := h.limited (hbody ho) maxInstructions maxBytes l
  label := by
    intro sc line hs l name global ho
    cases global with
    | true =>
      exact emitsFrom_lift (h.define l (ho _ List.mem_cons_self _ rfl) (Mark.text_global name).symm)
    | false =>
      refine emitsFrom_lift (h.define l (ho _ List.mem_cons_self _ rfl) ?_)
      rw [Mark.text_inner, ← hs]
      rfl
  generated hs l kind _ :=
    emitsFrom_lift (h.define l (h.construct s rfl kind _ []) (Scope.generated_text hs kind l))
  gotoIf hs l kind truth v target _ := h.gotoIf hs l kind truth v target
  construct hcode _ _ hos _ ho :=
    hcode fun o hmem => ho o (List.mem_cons_of_mem _ (hos.subset hmem))

end

end Emission

namespace Scope

open Emission

variable {P : Emission → Prop} {known : Mark → Prop} {ps : List Procedure} {s : Stem}
  {active : List String} {sc : Scope} {f : Location → Procedure → Scope → Lowering Unit}

@[simp] theorem emits_inlineProcedure (sc : Scope) (l : Location) (name : String) :
    Emits P (sc.inlineProcedure l name) := by
  unfold inlineProcedure
  split
  · split
    · simp
    · split <;> simp
  · split <;> simp

/-- A call has the code of the body that is expanded for it. -/
theorem emitsFrom_inlineCall (hP : ∀ i, P (.instruction i)) (hs : sc.Stands ps s active)
    (l : Location) (call : Call Expr)
    (hexpand : ∀ q sc' n, q ∈ ps → sc'.Stands ps (s.expand n) (q.name.value :: active) →
      EmitsFrom P (f l q sc')) :
    EmitsFrom P (sc.inlineCall f l call) := by
  intro st
  refine emits_bind_ok (emitsFrom_lift (by simp) st) fun x hx => ?_
  obtain ⟨hfind, -⟩ := hs.inlineProcedure (lift_outcome (a := x.1) (q := x.2) hx).1
  refine emits_bind ((sc.stateless_bindArguments hP x.1 call l).emitsFrom x.2) fun y => ?_
  refine emits_bind (hexpand x.1 _ y.2.inlined (List.mem_of_find?_eq_some hfind)
    (hs.expanded x.1 y.2.inlined _) _) fun z => ?_
  exact emits_pure _

/-- So has a body with all that is expanded inside, however deep. -/
theorem emitsFrom_lowerAll (h : AdmitsBody P known ps s.procedure) (depth : Nat)
    (hs : sc.Stands ps s active) {body : List (Located Stmt)}
    (ho : ∀ o ∈ listOccurrences body, ∀ m ∈ o.mark? s, known m) :
    EmitsFrom P (sc.lowerAll (expandUpTo depth) body) := by
  -- On the depth that is left. An expansion keeps the procedure that labels are named by.
  induction depth generalizing s active sc body with
  | zero =>
    refine h.rules.lowerAll (fun sc l call _ hs _ => ?_) hs body 0 ho
    exact emitsFrom_inlineCall (fun _ => h.code _ trivial) hs l call fun q sc' n _ _ =>
      emitsFrom_lift (emits_fail _ _)
  | succ depth ih =>
    refine h.rules.lowerAll (fun sc l call _ hs _ => ?_) hs body 0 ho
    exact emitsFrom_inlineCall (fun _ => h.code _ trivial) hs l call fun q sc' n hq hs' =>
      ih (s := s.expand n) h hs' (h.expanded (s.expand n) rfl q hq)

theorem stands_self (sc : Scope) :
    sc.Stands sc.globals.procedures ⟨sc.stem, []⟩ (sc.expansions.map (·.procedure.name.value)) :=
  ⟨rfl, (Stem.text_nil _).symm, rfl⟩

theorem inPlace_lower (hf : ∀ l p sc, EmitsFrom InPlace (f l p sc)) (sc : Scope) (l : Location)
    (st : Stmt) : EmitsFrom InPlace (sc.lower f l st) := by
  have hrules := (inPlace_admits sc.globals.procedures sc.stem).rules (s := ⟨sc.stem, []⟩)
  refine hrules.lower (fun sc l call _ hs _ => ?_) sc.stands_self l st 0 fun _ _ _ _ => trivial
  exact emitsFrom_inlineCall (fun _ => trivial) hs l call fun q sc' _ _ _ => hf l q sc'

theorem inPlace_lowerAll (depth : Nat) (sc : Scope) (body : List (Located Stmt)) :
    EmitsFrom InPlace (sc.lowerAll (expandUpTo depth) body) :=
  emitsFrom_lowerAll (inPlace_admits _ _) depth sc.stands_self fun _ _ _ _ => trivial

theorem inPlace_expandUpTo (depth : Nat) (l : Location) (p : Procedure) (sc : Scope) :
    EmitsFrom InPlace (expandUpTo depth l p sc) := by
  cases depth with
  | zero => exact emitsFrom_lift (emits_fail _ _)
  | succ depth => exact sc.inPlace_lowerAll depth p.body

theorem inPlace_lowerBody (sc : Scope) (body : List (Located Stmt)) :
    EmitsFrom InPlace (sc.lowerBody body) :=
  sc.inPlace_lowerAll _ body

end Scope

namespace Globals

open Emission

/-- A vector is limited in size, and filled up with instructions. -/
theorem emitsFrom_vectors {P : Emission → Prop} {known : Mark → Prop} (h : Admits P known)
    (g : Globals) (table : Located (List VectorEntry)) : EmitsFrom P (g.vectors table) := by
  refine emitsFrom_bind (emitsFrom_lift (emits_forM fun e _ => by simp)) fun _ => ?_
  refine emitsFrom_forM fun x _ => emitsFrom_bind (h.limited ?_ _ _ _) fun size => ?_
  · exact h.stateless (VectorAction.stateless_lower (fun _ => trivial) _ _ _)
  · refine emitsFrom_forM fun _ _ => emitsFrom_lift (sends_place ?_ (by simp)).emits
    exact fun _ => h.code _ trivial

theorem inPlace_vectors (g : Globals) (table : Located (List VectorEntry)) :
    EmitsFrom InPlace (g.vectors table) :=
  g.emitsFrom_vectors (inPlace_admits [] "").toAdmits table

end Globals

end Avr
