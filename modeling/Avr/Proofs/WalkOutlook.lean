import Mathlib.Data.List.Nodup
import Mathlib.Data.List.Perm.Subperm
import Avr.Proofs.StatementWalk

namespace Avr

namespace Scope

theorem inlineCall_eq (s : Scope) (expand : Location → Procedure → Scope → Lowering Unit)
    (l : Location) (call : Call Expr) :
    s.inlineCall expand l call =
      (do
        let p ← s.inlineProcedure l call.name.value
        s.bindArguments p call l
        return p) >>= fun p => (do
        let st ← get
        set { st with inlined := st.inlined + 1, aliases := [] }
        expand l p { s with
          expansions := ⟨p, "_inl" ++ toString st.inlined⟩ :: s.expansions
          outer := st.aliases ++ s.outer }
        modify fun inner => { inner with aliases := st.aliases }) := by
  simp only [inlineCall, bind_assoc, pure_bind]

end Scope

namespace Context

variable {c d : Context}

/-- How deep expansions may still nest. -/
def depth (c : Context) : Nat := c.globals.procedures.length - c.expansions.length

theorem SameStacks.depth (h : c.SameStacks d) : d.depth = c.depth := by
  simp only [Context.depth, h.globals, h.expansions]

/-- Does the task in one go, with all that it opens. -/
def complete (c : Context) : Task → Checked Context
  | .lower l st => c.does (·.lower (Scope.expandUpTo c.depth) l st)
  | task => do
    let x ← c.perform task
    return x.2

def completeAll (c : Context) (tasks : List Task) : Checked Context := tasks.foldlM complete c

theorem completeAll_cons (task : Task) (tasks : List Task) :
    c.completeAll (task :: tasks) = c.complete task >>= fun d => d.completeAll tasks := rfl

theorem completeAll_append (xs ys : List Task) :
    c.completeAll (xs ++ ys) = c.completeAll xs >>= fun d => d.completeAll ys :=
  List.foldlM_append

/-- Wherever that is the place and that many expansions may still nest, the tasks do what the code
does. -/
def Completes (s : Scope) (n : Nat) (code : Lowering Unit) (tasks : List Task) : Prop :=
  ∀ c : Context, c.site = s → c.depth = n → c.completeAll tasks = c.does fun _ => code

section

variable {s : Scope} {n : Nat} {f g : Lowering Unit} {xs ys : List Task}

theorem Completes.append (hf : Completes s n f xs) (hg : Completes s n g ys) :
    Completes s n (f >>= fun _ => g) (xs ++ ys) := by
  intro c hs hn
  rw [completeAll_append, hf c hs hn, does_seq]
  refine Outcome.bind_eq_of_ok fun d hd => ?_
  have hsame := sameStacks_does hd
  exact hg d (hsame.site.trans hs) (hsame.depth.trans hn)

theorem completes_nil : Completes s n (pure ()) [] := by
  intro c _ _
  exact does_pure.symm

theorem completes_task {task : Task} (h : ∀ c : Context, c.site = s → c.depth = n →
    c.complete task = c.does fun _ => f) : Completes s n f [task] := by
  intro c hs hn
  rw [completeAll_cons, h c hs hn]
  exact bind_pure _

theorem complete_act {task : Task} {code : Scope → Lowering Unit}
    (h : c.complete task = do
      let x ← c.act code
      return x.2) : c.complete task = c.does code := by
  rw [h]
  simp only [act, bind_assoc, pure_bind]
  exact bind_pure _

theorem completes_act {task : Task} (code : Scope → Lowering Unit)
    (h : ∀ c : Context, c.complete task = do
      let x ← c.act code
      return x.2) : Completes s n (code s) [task] :=
  completes_task fun c hs _ => (complete_act (h c)).trans (does_site hs code)

theorem completes_lower (l : Location) (st : Stmt) :
    Completes s n (s.lower (Scope.expandUpTo n) l st) [.lower l st] := by
  refine completes_task fun c hs hn => ?_
  subst hs hn
  rfl

theorem completes_body (body : List (Located Stmt)) :
    Completes s n (s.lowerAll (Scope.expandUpTo n) body) (Task.ofBody body) := by
  induction body with
  | nil => exact completes_nil
  | cons st body ih => exact (completes_lower st.location st.value).append ih

theorem completes_option (st : Option (Located Stmt)) :
    Completes s n (s.lowerOption (Scope.expandUpTo n) st) (Task.ofBody st.toList) := by
  cases st with
  | none => exact completes_nil
  | some st => exact completes_lower st.location st.value

theorem completes_define (l : Location) (name : String) :
    Completes s n (Trace.define l name) [.define l name] :=
  completes_act (fun _ => Trace.define l name) fun _ => rfl

theorem completes_goto (l : Location) (target : LabelRef) :
    Completes s n (s.goto l target) [.goto l target] :=
  completes_act (·.goto l target) fun _ => rfl

theorem completes_count (l : Location) (counter : Counter) (start : LabelRef) :
    Completes s n (s.place l (counter.update start)) [.count l counter start] :=
  completes_act (·.place l (counter.update start)) fun _ => rfl

theorem completes_popAll (l : Location) (saved : List Reg) :
    Completes s n (saved.forM fun r => s.place l (Selection.onReg .pop r)) [.popAll l saved] :=
  completes_act (fun s => saved.forM fun r => s.place l (Selection.onReg .pop r)) fun _ => rfl

theorem completes_repeatIf (l : Location) (condition : Located Expr) (start : String) :
    Completes s n (do
      let v ← s.resolve condition
      s.gotoIf l true v (.plain start) (s.generated "while" l)) [.repeatIf l condition start] :=
  completes_act (fun s => do
    let v ← s.resolve condition
    s.gotoIf l true v (.plain start) (s.generated "while" l)) fun _ => rfl

/-- Code that is run in a loop leaves the loop as it is. -/
theorem does_enterLoop (labels : LoopLabels) :
    (c.enterLoop labels).does (fun _ => f) =
      c.does (fun _ => f) >>= fun d => .ok (d.enterLoop labels) := by
  simp only [does, run, absorb, bind_assoc]
  rfl

theorem Completes.loop {labels : LoopLabels}
    (hf : Completes { s with loop := some labels } n f xs) (hg : Completes s n g ys)
    (hs : c.site = s) (hn : c.depth = n) :
    (c.enterLoop labels).completeAll (xs ++ [.leaveLoop] ++ ys) =
      c.does fun _ => f >>= fun _ => g := by
  rw [completeAll_append, completeAll_append, hf (c.enterLoop labels) (hs ▸ rfl) hn,
    does_enterLoop, does_seq]
  simp only [bind_assoc]
  refine Outcome.bind_eq_of_ok fun d hd => ?_
  have hsame := sameStacks_does hd
  exact hg d (hsame.site.trans hs) (hsame.depth.trans hn)

/-- An expansion has its own aliases, and the others are found again after it. -/
theorem does_expansion (p : Procedure) :
    ((c.enterExpansion p).does (fun _ => f) >>= fun d => .ok d.leaveExpansion) =
      c.does fun _ => (do
        set { c.progress with inlined := c.counters.inlined + 1, aliases := [] }
        f
        modify fun inner => { inner with aliases := c.scope }) := by
  let inner : Progress := { c.progress with inlined := c.counters.inlined + 1, aliases := [] }
  have hcode : (do set inner; f; modify fun p => { p with aliases := c.scope } : Lowering Unit)
      c.progress = f inner >>= fun x => pure ((), { x.2 with aliases := c.scope }) := by
    change (pure ((), inner) >>= fun y : Unit × Progress => f y.2 >>= fun x =>
      pure ((), { x.2 with aliases := c.scope }) : Trace (Unit × Progress)) = _
    rw [pure_bind]
  simp only [does, run, bind_assoc]
  rw [hcode, absorb_bind]
  simp only [absorb_pure, bind_assoc]
  simp only [absorb, bind_assoc]
  rfl

theorem instructions_absorb {t : Trace α} {x : α × Context} (h : c.absorb t = .ok x) :
    x.2.instructions = c.instructions + t.emitted.countP Emission.isInstruction := by
  simp only [absorb, Outcome.bind_ok, Outcome.pure_ok] at h
  obtain ⟨o, -, a, -, rfl⟩ := h
  rfl

theorem closeSkip_eq (l : Location) (probe found : Nat) :
    Trace.closeSkip l probe found = (do
      Trace.define l ("?probe" ++ toString probe ++ "_end")
      Trace.checkLimit 1 2 l probe found) := rfl

theorem limited_skip (l : Location) (p : Progress) :
    Lowering.limited 1 2 l f p = (do
      let inner := { p with probes := p.probes + 1 }
      Trace.define l ("?probe" ++ toString p.probes ++ "_start")
      let x ← f inner
      Trace.closeSkip l p.probes ((f inner).emitted.countP Emission.isInstruction)
      pure x) := by
  simp only [Lowering.limited_eq, closeSkip_eq, bind_assoc]

theorem run_lift (t : Trace α) : c.run (fun _ => t) = c.absorb t := by
  change c.absorb (t >>= fun a => pure (a, c.progress)) >>= _ = _
  rw [absorb_bind]
  simp only [absorb_pure]
  simp only [absorb, bind_assoc]
  rfl

/-- The instructions of a part that is limited are those counted since its start. -/
theorem does_limited (l : Location) :
    c.does (fun _ => Lowering.limited 1 2 l f) = (do
      let x ← c.countProbe.run fun _ =>
        Trace.define l ("?probe" ++ toString c.counters.probes ++ "_start")
      let d ← x.2.does fun _ => f
      d.does fun _ => Trace.closeSkip l c.counters.probes (d.instructions - x.2.instructions)) := by
  -- Both sides define the start, run the code and close it. They count instructions differently.
  let inner : Progress := { c.progress with probes := c.counters.probes + 1 }
  have hprobe : c.countProbe = c.record inner := rfl
  simp only [does, run_lift, hprobe, absorb_record, bind_assoc]
  change (c.absorb (Lowering.limited 1 2 l f c.progress) >>= _) >>= _ = _
  rw [limited_skip, absorb_bind, bind_assoc, bind_assoc]
  refine Outcome.bind_eq_of_ok fun x _ => ?_
  change _ = ((x.2.record inner).absorb (f inner) >>= _) >>= _
  rw [absorb_bind, absorb_record]
  simp only [bind_assoc]
  refine Outcome.bind_eq_of_ok fun y hy => ?_
  have hfound : (y.2.record y.1.2).instructions - (x.2.record inner).instructions =
      (f inner).emitted.countP Emission.isInstruction := by
    change y.2.instructions - x.2.instructions = _
    rw [instructions_absorb hy]
    exact Nat.add_sub_cancel_left _ _
  change _ = (y.2.record y.1.2).absorb (Trace.closeSkip l c.counters.probes
    ((y.2.record y.1.2).instructions - (x.2.record inner).instructions)) >>= _
  rw [hfound, absorb_record, absorb_bind]
  simp only [absorb_pure, bind_assoc]
  rfl

end

/-- Goes on from where a task has led. -/
def resume (r : Checked (List Task × Context)) : Checked Context := do
  let x ← r
  x.2.completeAll x.1

theorem resume_pure (tasks : List Task) : resume (pure (tasks, c)) = c.completeAll tasks := rfl

theorem resume_bind (r : Checked α) (f : α → Checked (List Task × Context)) :
    resume (r >>= f) = r >>= fun a => resume (f a) :=
  bind_assoc r f _

theorem resume_run {code : Scope → Lowering α} {g : α → Lowering Unit} {tasks : α → List Task}
    (h : ∀ a, Completes c.site c.depth (g a) (tasks a)) :
    (resume do
      let x ← c.run code
      return (tasks x.1, x.2)) = c.does fun _ => code c.site >>= g := by
  rw [does_bind fun _ => code c.site, resume_bind]
  refine Outcome.bind_eq_of_ok fun x hx => ?_
  have hsame := sameStacks_run hx
  exact h x.1 x.2 hsame.site hsame.depth

theorem sameStacks_countProbe : c.SameStacks c.countProbe := ⟨rfl, rfl, rfl, rfl, rfl⟩

/-- A statement that is skipped by the instruction before it. -/
theorem resume_skip {l yl : Location} {yes : Stmt} (m : Mnemonic) (a b : Operand) :
    (resume do
      let x ← c.run fun s => s.place l (Selection.emit m [a, b])
      let y ← x.2.countProbe.run fun _ =>
        Trace.define yl ("?probe" ++ toString x.2.counters.probes ++ "_start")
      return ([.lower yl yes, .closeSkip yl x.2.counters.probes y.2.instructions], y.2)) =
      c.does fun s => (do
        s.place l (Selection.emit m [a, b])
        Lowering.limited 1 2 yl (s.lower (Scope.expandUpTo c.depth) yl yes)) := by
  rw [does_bind, resume_bind]
  refine Outcome.bind_eq_of_ok fun x hx => ?_
  rw [does_site rfl, does_limited, resume_bind]
  refine Outcome.bind_eq_of_ok fun y hy => ?_
  have hrun : x.2.SameStacks y.2 := sameStacks_countProbe.trans (sameStacks_run hy)
  rw [← (sameStacks_run hx).depth, ← hrun.site, ← hrun.depth, resume_pure, completeAll_cons]
  refine Outcome.bind_eq_of_ok fun d _ => ?_
  exact (bind_pure _).trans (complete_act rfl)

theorem resume_branch (l : Location) (condition yes : Located _) (no : Option (Located Stmt)) :
    resume (c.enter l (.branch condition yes no)) =
      c.does (·.lower (Scope.expandUpTo c.depth) l (.branch condition yes no)) := by
  obtain ⟨yl, yes⟩ := yes
  simp only [enter, Scope.lower]
  rw [resume_bind, does_bind]
  refine Outcome.bind_eq_of_ok fun x hx => ?_
  obtain ⟨v, d⟩ := x
  rw [← (sameStacks_run hx).depth, does_site rfl]
  simp only [enterBranch]
  cases hjump : d.site.jump? yl yes with
  | some target =>
    refine (resume_run fun _ => completes_option no).trans ?_
    simp only [bind_assoc]
  | none =>
    by_cases hno : no.all (·.value.isEmpty)
    · simp only [hno, if_true]
      cases hskip : yes.skip? v with
      | some skip => exact resume_skip skip.1 skip.2.1 skip.2.2
      | none =>
        exact resume_run fun _ => (completes_lower yl yes).append (completes_define l _)
    · by_cases hyes : yes.isEmpty
      · simp only [hno, hyes, if_true, if_false, Bool.false_eq_true]
        exact resume_run fun _ => (completes_option no).append (completes_define l _)
      · simp only [hno, hyes, if_false, Bool.false_eq_true]
        refine resume_run fun _ => (completes_lower yl yes).append ?_
        refine (completes_goto l _).append ((completes_define l _).append ?_)
        exact (completes_option no).append (completes_define l _)

theorem resume_openLoop {l : Location} {start stop : String} {next : Option String}
    {body : List (Located Stmt)} {close : List Task} {g : Lowering Unit}
    (h : Completes c.site c.depth g
      (next.toList.map (.define l) ++ close ++ [.define l stop])) :
    resume (c.openLoop l start stop next body close) = c.does fun _ => (do
      Trace.define l start
      { c.site with loop := some ⟨next.getD start, stop⟩ }.lowerAll (Scope.expandUpTo c.depth) body
      g) := by
  rw [does_bind, openLoop, resume_bind]
  refine Outcome.bind_eq_of_ok fun x hx => ?_
  have hsame := sameStacks_run hx
  exact (completes_body body).loop h hsame.site hsame.depth

theorem resume_loop (l : Location) (body : List (Located Stmt)) :
    resume (c.enter l (.loop none body)) =
      c.does (·.lower (Scope.expandUpTo c.depth) l (.loop none body)) := by
  rw [does_site rfl]
  simp only [enter, Scope.lower]
  refine (resume_openLoop ((completes_goto l _).append (completes_define l _))).trans ?_
  simp only [Option.getD_none]

theorem resume_countedLoop (l : Location) (condition : Located Expr) (body : List (Located Stmt)) :
    resume (c.enter l (.loop (some condition) body)) =
      c.does (·.lower (Scope.expandUpTo c.depth) l (.loop (some condition) body)) := by
  simp only [enter, Scope.lower]
  rw [resume_bind, does_bind]
  refine Outcome.bind_eq_of_ok fun x hx => ?_
  obtain ⟨counter, d⟩ := x
  have hsame := sameStacks_run hx
  rw [does_site rfl]
  simp only [← hsame.depth, ← hsame.site]
  by_cases hnext : anyContinues body
  · simp only [hnext, if_true]
    refine (resume_openLoop ((completes_define l _).append
      ((completes_count l counter _).append (completes_define l _)))).trans ?_
    simp only [Option.getD_some]
  · simp only [hnext, if_false, Bool.false_eq_true]
    refine (resume_openLoop
      ((completes_count l counter _).append (completes_define l _))).trans ?_
    simp only [Option.getD_none]

theorem resume_doWhile (l : Location) (body : List (Located Stmt)) (condition : Located Expr) :
    resume (c.enter l (.doWhile body condition)) =
      c.does (·.lower (Scope.expandUpTo c.depth) l (.doWhile body condition)) := by
  rw [does_site rfl]
  simp only [enter, Scope.lower]
  by_cases hnext : anyContinues body
  · simp only [hnext, if_true]
    refine (resume_openLoop ((completes_define l _).append
      ((completes_repeatIf l condition _).append (completes_define l _)))).trans ?_
    simp only [bind_assoc, Option.getD_some]
  · simp only [hnext, if_false, Bool.false_eq_true]
    refine (resume_openLoop
      ((completes_repeatIf l condition _).append (completes_define l _))).trans ?_
    simp only [bind_assoc, Option.getD_none]

theorem resume_saveRegs (l : Location) (registers : List (Located Expr))
    (body : List (Located Stmt)) :
    resume (c.enter l (.saveRegs registers body)) =
      c.does (·.lower (Scope.expandUpTo c.depth) l (.saveRegs registers body)) := by
  rw [does_site rfl]
  simp only [enter, Scope.lower]
  have htasks (saved : List Reg) := (completes_body body).append
    (completes_popAll (s := c.site) (n := c.depth) l saved.reverse)
  refine (resume_run htasks).trans ?_
  simp only [bind_assoc, pure_bind]

/-- The procedures being expanded are inline procedures, and none is expanded inside itself. -/
structure Sound (c : Context) : Prop where
  distinct : (c.expansions.map (·.procedure.name.value)).Nodup
  declared : ∀ e ∈ c.expansions, e.procedure ∈ c.globals.procedures ∧ e.procedure.inline

theorem Sound.of_sameStacks (h : c.Sound) (hsame : c.SameStacks d) : d.Sound := by
  refine ⟨?_, ?_⟩
  · rw [hsame.expansions]
    exact h.distinct
  · rw [hsame.expansions, hsame.globals]
    exact h.declared

/-- Expansions nest no deeper than there are inline procedures. -/
theorem Sound.length_le (h : c.Sound) :
    c.expansions.length ≤ (c.globals.procedures.filter (·.inline)).length := by
  have hnodup : (c.expansions.map (·.procedure)).Nodup := by
    refine List.Nodup.of_map (·.name.value) ?_
    rw [List.map_map]
    exact h.distinct
  have hsub : c.expansions.map (·.procedure) ⊆ c.globals.procedures.filter (·.inline) := by
    intro p hp
    obtain ⟨e, he, rfl⟩ := List.mem_map.mp hp
    exact List.mem_filter.mpr (h.declared e he)
  rw [← List.length_map (·.procedure)]
  exact (List.subperm_of_subset hnodup hsub).length_le

/-- Where code comes to a procedure to be expanded. -/
structure Expands (c d : Context) (p : Procedure) : Prop extends SameStacks c d where
  declared : p ∈ c.globals.procedures
  inline : p.inline
  inactive : p.name.value ∉ c.expansions.map (·.procedure.name.value)

theorem expands_of_run {l : Location} {call : Call Expr} {x : Procedure × Context}
    (h : c.run (fun s => do
      let p ← s.inlineProcedure l call.name.value
      s.bindArguments p call l
      return p) = .ok x) : c.Expands x.2 x.1 := by
  obtain ⟨es, q, hy, -, hsame⟩ := run_ok h
  simp only [Trace.yields_bind_state, Trace.yields_lift, Trace.yields_pure_state] at hy
  obtain ⟨p, _, _, _, ⟨hp, -⟩, ⟨_, _, _, _, -, ⟨-, hx, -⟩, -⟩, -⟩ := hy
  obtain ⟨hfind, hinline, hactive⟩ := Scope.inlineProcedure_ok hp.2
  have hname : p.name.value = call.name.value := by simpa using List.find?_some hfind
  rw [← hx]
  refine ⟨hsame, List.mem_of_find?_eq_some hfind, hinline, ?_⟩
  rw [hname]
  exact hactive

theorem Sound.enterExpansion {p : Procedure} (h : c.Sound) (hp : c.Expands d p) :
    (d.enterExpansion p).Sound := by
  refine ⟨?_, ?_⟩
  · change (p.name.value :: d.expansions.map _).Nodup
    rw [hp.expansions]
    exact List.nodup_cons.mpr ⟨hp.inactive, h.distinct⟩
  · change ∀ e ∈ _ :: d.expansions, e.procedure ∈ d.globals.procedures ∧ _
    rw [hp.expansions, hp.globals]
    intro e he
    rcases List.mem_cons.mp he with rfl | he
    · exact ⟨hp.declared, hp.inline⟩
    · exact h.declared e he

/-- An expansion that is started was still allowed. -/
theorem Sound.depth_enterExpansion {p : Procedure} (h : c.Sound) (hp : c.Expands d p) :
    c.depth = (d.enterExpansion p).depth + 1 := by
  have hlength := (h.enterExpansion hp).length_le
  have hfilter := List.length_filter_le (·.inline) c.globals.procedures
  change d.expansions.length + 1 ≤ (d.globals.procedures.filter (·.inline)).length at hlength
  change _ = d.globals.procedures.length - (d.expansions.length + 1) + 1
  rw [hp.globals, hp.expansions] at *
  unfold depth
  omega

theorem resume_enterCall (h : c.Sound) (l : Location) (call : Call Expr) :
    resume (c.enterCall l call) =
      c.does (·.inlineCall (Scope.expandUpTo c.depth) l call) := by
  simp only [Scope.inlineCall_eq]
  rw [does_bind, enterCall, resume_bind]
  refine Outcome.bind_eq_of_ok fun x hx => ?_
  rw [resume_pure, completeAll_append, completes_body x.1.body _ rfl rfl,
    h.depth_enterExpansion (expands_of_run hx)]
  exact does_expansion x.1

theorem resume_act (code : Scope → Lowering Unit) : resume (c.act code) = c.does code := by
  rw [act, resume_bind]
  exact bind_pure _

theorem resume_enter (h : c.Sound) (l : Location) (st : Stmt) :
    resume (c.enter l st) = c.does (·.lower (Scope.expandUpTo c.depth) l st) := by
  cases st with
  | expr e =>
    cases e with
    | call call => exact resume_enterCall h l call
    | unary op _ => cases op <;> exact resume_act _
    | _ => exact resume_act _
  | call call => exact resume_enterCall h l call
  | branch condition yes no => exact resume_branch l condition yes no
  | loop condition body =>
    cases condition with
    | none => exact resume_loop l body
    | some condition => exact resume_countedLoop l condition body
  | doWhile body condition => exact resume_doWhile l body condition
  | block body => exact completes_body body c rfl rfl
  | saveRegs registers body => exact resume_saveRegs l registers body
  | _ => exact resume_act _

/-- Doing a task and then what is left to do is doing it in one go. -/
theorem resume_perform (h : c.Sound) (task : Task) :
    resume (c.perform task) = c.complete task := by
  cases task with
  | lower l st => exact resume_enter h l st
  | leaveLoop => rfl
  | leaveExpansion => rfl
  | _ => exact (resume_act _).trans (complete_act rfl).symm

end Context

namespace Walk

variable {w : Walk}

/-- What the walk will come to. -/
def outlook (w : Walk) : Checked Context :=
  match w.fault with
  | none => w.context.completeAll w.tasks
  | some e => .error e

/-- A step never changes what the walk comes to. -/
theorem Steps.outlook {v : Walk} (h : w.Steps v) (hw : w.context.Sound) :
    v.outlook = w.outlook := by
  cases h with
  | stay c fault => rfl
  | release c task tasks e => rfl
  | @perform c task x tasks h =>
    have hcomplete := Context.resume_perform hw task
    rw [h] at hcomplete
    change _ = c.complete task >>= _
    rw [← hcomplete]
    exact Context.completeAll_append x.1 tasks
  | @fail c task e tasks h =>
    have hcomplete := Context.resume_perform hw task
    rw [h] at hcomplete
    change _ = c.complete task >>= _
    rw [← hcomplete]
    rfl

end Walk

end Avr
