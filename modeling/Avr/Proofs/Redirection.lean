import Avr.Proofs.ConditionalJumps
import Avr.Proofs.StructuredFlow

namespace Avr

namespace Instruction

/-- The label is where the instruction jumps to. -/
def JumpsTo (i : Instruction) (target : LabelRef) : Prop :=
  ∃ slots slot, i.mnemonic.form i.operands = .ok slots ∧
    (slot, .label target) ∈ slots.zip i.operands ∧ slot.isJump

def retarget (t u : LabelRef) (i : Instruction) : Instruction :=
  { i with operands := i.operands.map fun o => if o = .label t then .label u else o }

end Instruction

/-- The same, or a jump to `t` and that jump with the target `u`. The latter only if there may be
such jumps. -/
inductive Emission.Redirects (may : Prop) (t u : LabelRef) : Emission → Emission → Prop
  | same (e : Emission) : Redirects may t u e e
  | jump {l : Location} {i : Instruction} (permitted : may) (jumps : i.JumpsTo t) :
    Redirects may t u (.instruction ⟨l, i⟩) (.instruction ⟨l, i.retarget t u⟩)

theorem Emission.Redirects.isInstruction {may : Prop} {t u : LabelRef} {e e' : Emission}
    (h : e.Redirects may t u e') : e.isInstruction = e'.isInstruction := by
  cases h <;> rfl

namespace Trace

/-- The traces are the same but for the targets of some jumps. -/
structure Redirects (may : Prop) (t u : LabelRef) (x y : Trace α) : Prop where
  emitted : List.Forall₂ (Emission.Redirects may t u) x.emitted y.emitted
  warnings : x.warnings = y.warnings
  outcome : x.outcome = y.outcome

namespace Redirects

variable {may may' : Prop} {t u : LabelRef}

theorem refl (x : Trace α) : x.Redirects may t u x :=
  ⟨List.forall₂_same.mpr fun e _ => .same e, rfl, rfl⟩

theorem mono {x y : Trace α} (h : x.Redirects may t u y) (hmay : may → may') :
    x.Redirects may' t u y := by
  refine ⟨h.emitted.imp fun e e' he => ?_, h.warnings, h.outcome⟩
  cases he with
  | same => exact .same e
  | jump hm hj => exact .jump (hmay hm) hj

theorem bind {x y : Trace α} {f g : α → Trace β} (h : x.Redirects may t u y)
    (hf : ∀ a, x.outcome = .ok a → (f a).Redirects may t u (g a)) :
    (x >>= f).Redirects may t u (y >>= g) := by
  have houtcome := h.outcome
  cases hx : x.outcome with
  | error e =>
    rw [hx] at houtcome
    rw [bind_error hx, bind_error houtcome.symm]
    exact ⟨h.emitted, h.warnings, rfl⟩
  | ok a =>
    rw [hx] at houtcome
    rw [bind_ok hx, bind_ok houtcome.symm]
    have hfa := hf a hx
    exact ⟨List.rel_append h.emitted hfa.emitted, by simp [h.warnings, hfa.warnings], hfa.outcome⟩

end Redirects

end Trace

namespace Lowering

def Redirects (may : Prop) (t u : LabelRef) (x y : Lowering α) : Prop :=
  ∀ p, (x p).Redirects may t u (y p)

namespace Redirects

variable {may may' : Prop} {t u : LabelRef}

theorem refl (x : Lowering α) : x.Redirects may t u x := fun p => .refl (x p)

theorem mono {x y : Lowering α} (h : x.Redirects may t u y) (hmay : may → may') :
    x.Redirects may' t u y :=
  fun p => (h p).mono hmay

theorem bind {x y : Lowering α} {f g : α → Lowering β} (h : x.Redirects may t u y)
    (hf : ∀ a, (f a).Redirects may t u (g a)) : (x >>= f).Redirects may t u (y >>= g) :=
  fun p => Trace.Redirects.bind (h p) fun a _ => hf a.1 a.2

theorem lift {x y : Trace α} (h : x.Redirects may t u y) :
    (liftM x : Lowering α).Redirects may t u (liftM y) :=
  fun _ => Trace.Redirects.bind h fun _ _ => .refl _

/-- What comes first is the same, and what comes next may rely on its result. -/
theorem bind_lift {x : Trace α} {f g : α → Lowering β}
    (hf : ∀ a, x.outcome = .ok a → (f a).Redirects may t u (g a)) :
    (liftM x >>= f : Lowering β).Redirects may t u (liftM x >>= g) := by
  intro p
  refine Trace.Redirects.bind (.refl _) fun a ha => ?_
  change (x >>= fun a => pure (a, p)).outcome = .ok a at ha
  cases hx : x.outcome with
  | error e =>
    rw [Trace.bind_error hx] at ha
    cases ha
  | ok b =>
    rw [Trace.bind_ok hx] at ha
    cases ha
    exact hf b hx p

theorem limited {x y : Lowering α} (h : x.Redirects may t u y) (maxInstructions maxBytes : Nat)
    (l : Location) :
    (limited maxInstructions maxBytes l x).Redirects may t u
      (limited maxInstructions maxBytes l y) := by
  intro p
  have hxy := h { p with probes := p.probes + 1 }
  have hcount : (x { p with probes := p.probes + 1 }).emitted.countP Emission.isInstruction =
      (y { p with probes := p.probes + 1 }).emitted.countP Emission.isInstruction := by
    have hmap := hxy.emitted.imp fun _ _ he => he.isInstruction
    have hlists := List.forall₂_eq_eq_eq ▸ List.forall₂_map_left_iff.mpr
      (List.forall₂_map_right_iff.mpr hmap)
    simpa [List.countP_map, Function.comp_def] using congrArg (List.countP id) hlists
  unfold Lowering.limited
  simp only [hcount]
  exact .bind (.refl _) fun _ _ => .bind hxy fun _ _ => .refl _

end Redirects

end Lowering

/-- A mnemonic with nothing but a target takes every label. -/
theorem Mnemonic.form_label {m : Mnemonic} {slot : Slot} (hforms : m.forms = [[slot]])
    (hslot : slot.isJump) (t : LabelRef) : m.form [.label t] = .ok [slot] := by
  cases slot with
  | rel7 | rel12 | abs22 =>
    simp only [form, formOfLength?, hforms]
    rfl
  | _ => cases hslot

namespace Selection

/-- The same selection, or the same code but for the targets of some jumps. -/
inductive Redirects (t u : LabelRef) : Selection → Selection → Prop
  | same (x : Selection) : Redirects t u x x
  | code {is js : List Instruction} {warnings : List Warning}
    (instructions : List.Forall₂ (fun i j => i = j ∨ i.JumpsTo t ∧ j = i.retarget t u) is js) :
    Redirects t u (.ok ⟨is, warnings⟩) (.ok ⟨js, warnings⟩)

variable {t u : LabelRef}

theorem Redirects.sequence {x y : Selection} (h : Redirects t u x y) (first : Selection) :
    Redirects t u (sequence [first, x]) (sequence [first, y]) := by
  cases h with
  | same => exact .same _
  | code hcode =>
    cases first with
    | error e => exact .same _
    | ok c => exact .code (List.rel_append (List.forall₂_same.mpr fun _ _ => .inl rfl)
        (List.rel_append hcode .nil))

theorem redirects_jumpTo {m : Mnemonic} {slot : Slot} (hforms : m.forms = [[slot]])
    (hslot : slot.isJump) : Redirects t u (jumpTo m t) (jumpTo m u) := by
  have hemit (t : LabelRef) : jumpTo m t =
      .ok { instructions := [{ mnemonic := m, operands := [.label t] }] } := by
    simp only [jumpTo, emit, Instruction.make, Mnemonic.form_label hforms hslot]
    rfl
  rw [hemit, hemit]
  refine .code (.cons (.inr ⟨⟨[slot], slot, ?_, by simp, hslot⟩, by simp [Instruction.retarget]⟩)
    .nil)
  exact Mnemonic.form_label hforms hslot t

theorem redirects_statusBit {m : Mnemonic} (hforms : m.forms = [[.statusBit, .rel7]])
    (k : Int32) : Redirects t u (emit m [.number k, .label t]) (emit m [.number k, .label u]) := by
  have hform (t : LabelRef) : m.form [.number k, .label t] = (do
      Slot.statusBit.check m (.number k)
      return [.statusBit, .rel7]) := by
    simp only [Mnemonic.form, Mnemonic.formOfLength?, hforms]
    change (do (do Slot.statusBit.check m (.number k); .ok ()); pure _) = _
    cases Slot.statusBit.check m (.number k) <;> rfl
  simp only [emit, Instruction.make, hform]
  cases hcheck : Slot.statusBit.check m (.number k) with
  | error e => exact .same _
  | ok =>
    have hok : m.form [.number k, .label t] = .ok [.statusBit, .rel7] := by
      rw [hform, hcheck]
      rfl
    exact .code (.cons (.inr ⟨⟨_, .rel7, hok, by simp, rfl⟩, by simp [Instruction.retarget]⟩) .nil)

theorem JumpPair.redirects {x y : Selection} (h : JumpPair t u x y) : Redirects t u x y := by
  induction h with
  | fault => exact .same _
  | never => exact .same _
  | jump hforms =>
    rcases hforms with rfl | hforms
    · exact redirects_jumpTo rfl rfl
    · exact redirects_jumpTo hforms rfl
  | flag hforms k => exact redirects_statusBit hforms k
  | after _ _ ih => exact ih.sequence _
  | skip => exact (redirects_jumpTo rfl rfl).sequence _

end Selection

namespace Test

inductive Redirects (t u : LabelRef) : Test → Test → Prop
  | same (x : Test) : Redirects t u x x
  | jump {x y : Selection} (selections : x.Redirects t u y) : Redirects t u (.jump x) (.jump y)

variable {t u : LabelRef}

theorem redirects_jumps (truth : Bool) (v : Value) (stem : String) :
    List.Forall₂ (Redirects t u) (jumps truth v t stem) (jumps truth v u stem) := by
  have hsame (xs : List Test) : List.Forall₂ (Redirects t u) xs xs :=
    List.forall₂_same.mpr fun x _ => .same x
  have hleaf (truth : Bool) (v : Value) : List.Forall₂ (Redirects t u)
      [jump (Selection.jumpIf truth false t v)] [jump (Selection.jumpIf truth false u v)] :=
    .cons (.jump (Selection.pair_jumpIf truth false v).redirects) .nil
  induction v generalizing truth stem with
  | binary op a b iha ihb =>
    cases op with
    | both =>
      cases truth with
      | true => exact List.rel_append (List.rel_append (hsame _) (ihb true _)) (hsame _)
      | false => exact List.rel_append (iha false _) (ihb false _)
    | either =>
      cases truth with
      | true => exact List.rel_append (iha true _) (ihb true _)
      | false => exact List.rel_append (List.rel_append (hsame _) (ihb false _)) (hsame _)
    | _ => cases truth <;> exact hleaf _ _
  | unary op v ih =>
    cases op with
    | not => cases truth <;> exact ih _ _
    | _ => cases truth <;> exact hleaf _ _
  | _ => cases truth <;> exact hleaf _ _

end Test

namespace Lowering

theorem Redirects.forM {may : Prop} {t u : LabelRef} {R : α → β → Prop} {xs : List α} {ys : List β}
    {f : α → Lowering PUnit} {g : β → Lowering PUnit} (h : List.Forall₂ R xs ys)
    (hf : ∀ x y, R x y → (f x).Redirects may t u (g y)) :
    (xs.forM f).Redirects may t u (ys.forM g) := by
  induction h with
  | nil => exact .refl _
  | cons hxy _ ih => exact .bind (hf _ _ hxy) fun _ => ih

end Lowering

namespace Scope

variable {t u : LabelRef}

theorem redirects_place {x y : Selection} (h : Selection.Redirects t u x y) (s : Scope)
    (l : Location) : (s.place l x).Redirects True t u (s.place l y) := by
  cases h with
  | same => exact .refl _
  | code hcode =>
    refine .lift ⟨?_, rfl, rfl⟩
    refine List.forall₂_map_left_iff.mpr (List.forall₂_map_right_iff.mpr (hcode.imp ?_))
    intro i j hij
    rcases hij with rfl | ⟨hi, rfl⟩
    · exact .same _
    · exact .jump trivial hi

theorem redirects_gotoIf (s : Scope) (l : Location) (truth : Bool) (v : Value) (stem : String) :
    (s.gotoIf l truth v t stem).Redirects True t u (s.gotoIf l truth v u stem) := by
  refine .forM (Test.redirects_jumps truth v stem) fun x y hxy => ?_
  cases hxy with
  | same => exact .refl _
  | jump h => exact redirects_place h s l

end Scope

mutual

/-- Resumes the loop that the statement stands in, by a `continue` of its own or by one of a
procedure that is expanded. -/
def Stmt.resumes (inlined : String → Bool) (st : Stmt) : Bool :=
  match st with
  | .again => true
  | .branch _ ⟨_, yes⟩ none => yes.resumes inlined
  | .branch _ ⟨_, yes⟩ (some ⟨_, no⟩) => yes.resumes inlined || no.resumes inlined
  | .block body | .saveRegs _ body => anyResumes inlined body
  | .call call | .expr (.call call) => inlined call.name.value
  | _ => false
termination_by structural st

def anyResumes (inlined : String → Bool) (body : List (Located Stmt)) : Bool :=
  match body with
  | [] => false
  | ⟨_, st⟩ :: rest => st.resumes inlined || anyResumes inlined rest
termination_by structural body

end

theorem Stmt.resumes_branch {inlined : String → Bool} {condition : Located Expr} {yl : Location}
    {yes : Stmt} {no : Option (Located Stmt)} :
    (Stmt.branch condition ⟨yl, yes⟩ no).resumes inlined =
      (yes.resumes inlined || no.any (·.value.resumes inlined)) := by
  cases no <;> simp [resumes]

/-- The procedures that resume the loop of their call, if at most that many expansions nest. -/
def Globals.resumesUpTo (g : Globals) : Nat → String → Bool
  | 0, _ => false
  | depth + 1, name => (g.procedure? name).any fun p => anyResumes (g.resumesUpTo depth) p.body

namespace Scope

/-- The scope with another label for `continue`. -/
def resuming (s : Scope) (name : String) : Scope :=
  { s with loop := s.loop.map fun labels => { labels with next := name } }

theorem asm_resuming (s : Scope) (m : String) (i : AsmInstruction) :
    (s.resuming m).asm i = s.asm i := by
  have hoperands := s.operands_loop (s.loop.map fun labels => { labels with next := m })
  simp only [asm, resuming, hoperands]
  rfl

theorem loopTarget_resuming (s : Scope) (m n : String) (l : Location) :
    (s.resuming m).loopTarget l false = (s.resuming n).loopTarget l false := by
  cases hloop : s.loop <;> simp [loopTarget, resuming, hloop]

section

variable {expand : Location → Procedure → Scope → Lowering Unit} {inlined : String → Bool}
  {m n : String}

/-- Expansions follow the label of `continue`, those of procedures that resume the loop. -/
def Follows (g : Globals) (inlined : String → Bool) (m n : String)
    (expand : Location → Procedure → Scope → Lowering Unit) : Prop :=
  ∀ l name p (s : Scope), s.globals = g → g.procedure? name = some p →
    (expand l p (s.resuming m)).Redirects (inlined name) (.plain m) (.plain n)
      (expand l p (s.resuming n))

theorem redirects_inlineCall {s : Scope} (hexpand : Follows s.globals inlined m n expand)
    (l : Location) (call : Call Expr) :
    ((s.resuming m).inlineCall expand l call).Redirects (inlined call.name.value) (.plain m)
      (.plain n) ((s.resuming n).inlineCall expand l call) := by
  refine .bind_lift fun p hp => .bind (.refl _) fun _ => .bind (.refl _) fun st => ?_
  refine .bind (.refl _) fun _ => .bind ?_ fun _ => .refl _
  exact hexpand l call.name.value p { s with
    expansions := ⟨p, "_inl" ++ toString st.inlined⟩ :: s.expansions
    outer := st.aliases ++ s.outer } rfl (inlineProcedure_ok hp).1

/-- The jump of `continue` goes where the label does. -/
theorem redirects_loopTarget {may : Prop} (s : Scope) (l : Location) {f g : LabelRef → Lowering β}
    (h : (f (.plain m)).Redirects may (.plain m) (.plain n) (g (.plain n))) :
    ((s.resuming m).loopTarget l true >>= f).Redirects may (.plain m) (.plain n)
      ((s.resuming n).loopTarget l true >>= g) := by
  cases hloop : s.loop with
  | none =>
    simp only [loopTarget, resuming, hloop, Option.map_none]
    refine .bind_lift fun _ hfail => ?_
    cases hfail
  | some labels =>
    simp only [loopTarget, resuming, hloop, Option.map_some, pure_bind, if_true]
    exact h

theorem jump_resuming {st : Stmt} (h : st ≠ .again) (s : Scope) (m n : String) (l : Location) :
    (s.resuming m).jump? l st = (s.resuming n).jump? l st := by
  cases st with
  | again => exact (h rfl).elim
  | leave => exact congrArg some (loopTarget_resuming s m n l)
  | _ => rfl

mutual

/-- The label of `continue` shows in jumps alone, and only where the loop is resumed. -/
theorem redirects_lower {s : Scope} (hexpand : Follows s.globals inlined m n expand)
    (l : Location) (st : Stmt) :
    ((s.resuming m).lower expand l st).Redirects (st.resumes inlined) (.plain m) (.plain n)
      ((s.resuming n).lower expand l st) := by
  match st with
  | .expr e =>
    simp only [lower]
    cases e with
    | call call => exact redirects_inlineCall hexpand l call
    | unary op _ => cases op <;> exact .refl _
    | _ => exact .refl _
  | .call call =>
    simp only [lower]
    exact redirects_inlineCall hexpand l call
  | .asm i =>
    simp only [lower, asm_resuming]
    exact .refl _
  | .label .. | .goto _ | .loop none _ | .loop (some _) _ | .doWhile .. | .use _ | .data _ =>
    simp only [lower]
    exact .refl _
  | .leave =>
    simp only [lower]
    rw [loopTarget_resuming s m n]
    exact .refl _
  | .again =>
    simp only [lower]
    refine redirects_loopTarget s l ?_
    exact (redirects_place (Selection.redirects_jumpTo rfl rfl) _ l).mono fun _ => rfl
  | .branch condition ⟨yl, yes⟩ no =>
    have hmay : (Stmt.branch condition ⟨yl, yes⟩ no).resumes inlined ↔
        yes.resumes inlined ∨ no.any (·.value.resumes inlined) := by
      rw [Stmt.resumes_branch, Bool.or_eq_true]
    have hyes := (redirects_lower hexpand yl yes).mono fun h => hmay.mpr (.inl h)
    have hno := (redirects_lowerOption hexpand no).mono fun h => hmay.mpr (.inr h)
    simp only [lower]
    refine .bind (.refl _) fun c => ?_
    by_cases hagain : yes = .again
    · subst hagain
      refine redirects_loopTarget s yl (.bind ?_ fun _ => hno)
      exact (redirects_gotoIf _ l true c _).mono fun _ => hmay.mpr (.inl rfl)
    · rw [jump_resuming hagain s m n]
      cases (s.resuming n).jump? yl yes with
      | some target => exact .bind (.refl _) fun _ => .bind (.refl _) fun _ => hno
      | none =>
        dsimp only
        split
        · split
          · exact .bind (.refl _) fun _ => hyes.limited 1 2 yl
          · exact .bind (.refl _) fun _ => .bind hyes fun _ => .refl _
        · split
          · exact .bind (.refl _) fun _ => .bind hno fun _ => .refl _
          · refine .bind (.refl _) fun _ => .bind hyes fun _ => .bind (.refl _) fun _ => ?_
            exact .bind (.refl _) fun _ => .bind hno fun _ => .refl _
  | .block body =>
    simp only [lower]
    exact redirects_lowerAll hexpand body
  | .saveRegs registers body =>
    have hbody := redirects_lowerAll hexpand body
    simp only [lower]
    exact .bind (.refl _) fun _ => .bind (.refl _) fun _ => .bind hbody fun _ => .refl _
termination_by structural st

theorem redirects_lowerOption {s : Scope} (hexpand : Follows s.globals inlined m n expand)
    (st : Option (Located Stmt)) :
    ((s.resuming m).lowerOption expand st).Redirects (st.any (·.value.resumes inlined)) (.plain m)
      (.plain n) ((s.resuming n).lowerOption expand st) := by
  match st with
  | none => exact .refl _
  | some ⟨l, st⟩ => exact redirects_lower hexpand l st
termination_by structural st

theorem redirects_lowerAll {s : Scope} (hexpand : Follows s.globals inlined m n expand)
    (body : List (Located Stmt)) :
    ((s.resuming m).lowerAll expand body).Redirects (anyResumes inlined body) (.plain m) (.plain n)
      ((s.resuming n).lowerAll expand body) := by
  match body with
  | [] => exact .refl _
  | ⟨l, st⟩ :: rest =>
    have hor : anyResumes inlined (⟨l, st⟩ :: rest) ↔
        st.resumes inlined ∨ anyResumes inlined rest := by
      rw [anyResumes, Bool.or_eq_true]
    have hst := (redirects_lower hexpand l st).mono fun h => hor.mpr (.inl h)
    have hrest := (redirects_lowerAll hexpand rest).mono fun h => hor.mpr (.inr h)
    simp only [lowerAll]
    exact .bind hst fun _ => hrest
termination_by structural body

end

end

/-- Of the code of a body nothing but jumps depends on the label of `continue`, and not even these
if the loop is not resumed. -/
theorem follows_expandUpTo (g : Globals) (m n : String) (depth : Nat) :
    Follows g (g.resumesUpTo depth) m n (expandUpTo depth) := by
  induction depth with
  | zero => exact fun l name p s hg hp => .refl _
  | succ depth ih =>
    intro l name p s hg hp
    subst hg
    have hbody := redirects_lowerAll ih p.body
    refine hbody.mono fun h => ?_
    simpa [Globals.resumesUpTo, hp] using h

end Scope

end Avr
