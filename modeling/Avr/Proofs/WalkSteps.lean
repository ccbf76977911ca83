import Avr.Proofs.WalkOutlook

namespace Avr

theorem Scope.steady_gotoIf (s : Scope) (l : Location) (truth : Bool) (v : Value)
    (target : LabelRef) (stem : String) :
    Lowering.Steady (s.gotoIf l truth v target stem) :=
  (s.stateless_gotoIf (fun _ => trivial) (fun _ => trivial) l truth v target stem).steady

namespace Context

variable {c d e : Context}

/-- All that was open is open again, and the innermost scope has only gained aliases. -/
structure Keeps (c d : Context) : Prop extends SameStacks c d where
  gained : ∃ new, d.scope = new ++ c.scope
  kept : ∀ name target, c.scope.lookup name = some target → d.scope.lookup name = some target

theorem Keeps.refl (c : Context) : c.Keeps c :=
  ⟨⟨rfl, rfl, rfl, rfl, rfl⟩, ⟨[], rfl⟩, fun _ _ h => h⟩

theorem Keeps.trans (h : c.Keeps d) (h' : d.Keeps e) : c.Keeps e := by
  refine ⟨h.toSameStacks.trans h'.toSameStacks, ?_, fun name target hname => ?_⟩
  · obtain ⟨xs, hxs⟩ := h.gained
    obtain ⟨ys, hys⟩ := h'.gained
    exact ⟨ys ++ xs, by rw [hys, hxs, List.append_assoc]⟩
  · exact h'.kept name target (h.kept name target hname)

theorem keeps_of_scope (h : c.SameStacks d) (hscope : d.scope = c.scope) : c.Keeps d := by
  refine ⟨h, ⟨[], hscope⟩, fun name target hname => ?_⟩
  rw [hscope]
  exact hname

open Lowering Trace

theorem keeps_run {code : Scope → Lowering α} {x : α × Context} (hcode : Steady (code c.site))
    (h : c.run code = .ok x) : c.Keeps x.2 := by
  obtain ⟨es, q, hy, hscope, hsame⟩ := run_ok h
  obtain ⟨rfl, -⟩ := hcode _ _ _ _ hy
  exact keeps_of_scope hsame hscope

/-- A new alias has a name that the innermost scope does not have. -/
theorem keeps_use {a : Alias} {x : Unit × Context} (h : c.run (·.use a) = .ok x) : c.Keeps x.2 := by
  obtain ⟨es, q, hy, hscope, hsame⟩ := run_ok h
  simp only [Scope.use, yields_bind_state, yields_get_state, yields_lift, yields_require,
    yields_set_state] at hy
  obtain ⟨_, _, _, _, ⟨-, rfl, rfl⟩, ⟨_, _, _, _, ⟨⟨-, hfresh⟩, rfl⟩, hset, -⟩, -⟩ := hy
  obtain ⟨_, _, _, _, ⟨-, rfl⟩, hwarn, -⟩ := hset
  have hq : q.aliases = (a.name.value, a.target) :: c.scope := by
    split at hwarn
    · rw [← (yields_lift.mp hwarn).2]
      rfl
    · rw [← (yields_pure_state.mp hwarn).2.2]
      rfl
  rw [hq] at hscope
  refine ⟨hsame, ⟨[_], hscope⟩, fun name target hname => ?_⟩
  have hne : name ≠ a.name.value := by
    rintro rfl
    have hnone : (c.scope.lookup a.name.value).isNone := hfresh
    rw [hname] at hnone
    cases hnone
  rw [hscope, List.lookup_cons, beq_false_of_ne hne]
  exact hname

/-- After a fault the two contexts are released alike. -/
theorem Keeps.release (h : c.Keeps d) (task : Task) : (c.release task).Keeps (d.release task) := by
  cases task with
  | leaveLoop =>
    exact { h with loops := congrArg List.tail h.loops }
  | leaveExpansion =>
    have hsame : c.leaveExpansion.SameStacks d.leaveExpansion := ⟨h.globals, h.procedure,
      congrArg List.tail h.enclosing, congrArg List.tail h.expansions, h.loops⟩
    cases henclosing : c.enclosing with
    | nil =>
      have hc : c.leaveExpansion.scope = c.scope := by simp [leaveExpansion, henclosing]
      have hd : d.leaveExpansion.scope = d.scope := by
        simp [leaveExpansion, h.enclosing, henclosing]
      refine ⟨hsame, ?_, ?_⟩
      · change ∃ new, d.leaveExpansion.scope = new ++ c.leaveExpansion.scope
        rw [hc, hd]
        exact h.gained
      · change ∀ name target, c.leaveExpansion.scope.lookup name = _ →
          d.leaveExpansion.scope.lookup name = _
        rw [hc, hd]
        exact h.kept
    | cons outer enclosing =>
      refine keeps_of_scope hsame ?_
      change d.enclosing.headD d.scope = c.enclosing.headD c.scope
      rw [h.enclosing, henclosing]
      rfl
  | _ => exact h

end Context

namespace Task

/-- Closes what was opened before. -/
def leaves : Task → Bool
  | leaveLoop | leaveExpansion => true
  | _ => false

/-- Only statements have parts. -/
noncomputable def size : Task → Nat
  | lower _ st => sizeOf st + 1
  | _ => 0

/-- What may be left to do of a task. -/
structure Within (t task : Task) : Prop where
  smaller : t.size < task.size
  plain : t.leaves = false

theorem Within.ne_leaveExpansion {t task : Task} (h : t.Within task) : t ≠ leaveExpansion := by
  rintro rfl
  cases h.plain

theorem within_end {t : Task} {l : Location} {st : Stmt} (hsize : t.size = 0)
    (hplain : t.leaves = false) : t.Within (lower l st) :=
  ⟨by rw [hsize]; exact Nat.succ_pos _, hplain⟩

theorem within_last {t : Task} {l : Location} {st : Stmt} (hsize : t.size = 0)
    (hplain : t.leaves = false) : ∀ u ∈ [t], u.Within (lower l st) :=
  List.forall_mem_singleton.mpr (within_end hsize hplain)

theorem within_part {l pl : Location} {part st : Stmt} (h : sizeOf part < sizeOf st) :
    (lower pl part).Within (lower l st) :=
  ⟨Nat.succ_lt_succ h, rfl⟩

theorem within_body {l : Location} {body : List (Located Stmt)} {st : Stmt}
    (h : sizeOf body < sizeOf st) : ∀ t ∈ ofBody body, t.Within (lower l st) := by
  intro t ht
  obtain ⟨⟨pl, part⟩, hmem, rfl⟩ := List.mem_map.mp ht
  apply within_part
  have hpart := List.sizeOf_lt_of_mem hmem
  simp only [Located.mk.sizeOf_spec] at hpart
  change sizeOf part < sizeOf st
  omega

theorem within_option {l : Location} {no : Option (Located Stmt)} {st : Stmt}
    (h : sizeOf no < sizeOf st) : ∀ t ∈ ofBody no.toList, t.Within (lower l st) := by
  cases no with
  | none => exact fun t ht => absurd ht List.not_mem_nil
  | some no =>
    intro t ht
    obtain rfl := List.mem_singleton.mp ht
    apply within_part
    obtain ⟨pl, part⟩ := no
    simp only [Option.some.sizeOf_spec, Located.mk.sizeOf_spec] at h
    change sizeOf part < sizeOf st
    omega

end Task

namespace Context

variable {c d e : Context}

open Lowering

/-- All that doing a task can come to: what is left to do, and the context then. -/
inductive Performs (c : Context) : Task → List Task → Context → Prop
  | goOn {task : Task} {more : List Task} {d : Context} (keeps : c.Keeps d)
      (plain : task.leaves = false) (parts : ∀ t ∈ more, t.Within task) : Performs c task more d
  | openLoop {task : Task} {xs ys : List Task} {d : Context} (labels : LoopLabels)
      (keeps : c.Keeps d) (plain : task.leaves = false) (parts : ∀ t ∈ xs ++ ys, t.Within task)
      (whole : 0 < task.size) : Performs c task (xs ++ [.leaveLoop] ++ ys) (d.enterLoop labels)
  | expand {task : Task} {p : Procedure} {d : Context} (keeps : c.Keeps d)
      (expands : c.Expands d p) (plain : task.leaves = false) :
      Performs c task (Task.ofBody p.body ++ [.leaveExpansion]) (d.enterExpansion p)
  | leaveLoop : Performs c .leaveLoop [] c.leaveLoop
  | leaveExpansion : Performs c .leaveExpansion [] c.leaveExpansion

section

variable {task : Task} {x : List Task × Context}

theorem performs_run {code : Scope → Lowering α} {tasks : List Task}
    (hcode : Steady (code c.site)) (hplain : task.leaves = false)
    (hparts : ∀ t ∈ tasks, t.Within task)
    (h : (do
      let y ← c.run code
      return (tasks, y.2)) = .ok x) : c.Performs task x.1 x.2 := by
  obtain ⟨y, hy, hx⟩ := Outcome.bind_ok.mp h
  obtain rfl := Outcome.pure_ok.mp hx
  have hkeeps := keeps_run hcode hy
  exact .goOn hkeeps hplain hparts

theorem performs_act {code : Scope → Lowering Unit} (hcode : Steady (code c.site))
    (hplain : task.leaves = false) (h : c.act code = .ok x) : c.Performs task x.1 x.2 := by
  simp only [act, does, bind_assoc, pure_bind] at h
  exact performs_run hcode hplain (List.forall_mem_nil _) h

theorem Performs.of_keeps {more : List Task} (hkeeps : c.Keeps d) (hplain : task.leaves = false)
    (h : d.Performs task more e) : c.Performs task more e := by
  cases h with
  | goOn keeps plain parts => exact .goOn (hkeeps.trans keeps) plain parts
  | openLoop labels keeps plain parts whole =>
    exact .openLoop labels (hkeeps.trans keeps) plain parts whole
  | expand keeps expands plain =>
    refine .expand (hkeeps.trans keeps) ⟨hkeeps.toSameStacks.trans keeps.toSameStacks, ?_, ?_, ?_⟩
      plain
    · rw [← hkeeps.globals]
      exact expands.declared
    · exact expands.inline
    · rw [← hkeeps.expansions]
      exact expands.inactive
  | leaveLoop => cases hplain
  | leaveExpansion => cases hplain

theorem performs_enterBranch {l : Location} {v : Value} {condition : Located Expr}
    {yes : Located Stmt} {no : Option (Located Stmt)} (h : c.enterBranch l v yes no = .ok x) :
    c.Performs (.lower l (.branch condition yes no)) x.1 x.2 := by
  have hyes : (Task.lower yes.location yes.value).Within (.lower l (.branch condition yes no)) := by
    apply Task.within_part
    obtain ⟨yl, yes⟩ := yes
    simp only [Stmt.branch.sizeOf_spec, Located.mk.sizeOf_spec]
    omega
  have hno : ∀ t ∈ Task.ofBody no.toList, t.Within (.lower l (.branch condition yes no)) := by
    apply Task.within_option
    simp only [Stmt.branch.sizeOf_spec]
    omega
  unfold enterBranch at h
  dsimp only at h
  split at h
  · next target htarget =>
    have hjump := (c.site.stateless_jump? htarget).steady
    refine performs_run ?_ rfl hno h
    exact steady_bind hjump fun _ => c.site.steady_gotoIf _ _ _ _ _
  · have hgotoIf := c.site.steady_gotoIf l
    split at h
    · split at h
      · obtain ⟨y, hy, h⟩ := Outcome.bind_ok.mp h
        obtain ⟨z, hz, hx⟩ := Outcome.bind_ok.mp h
        obtain rfl := Outcome.pure_ok.mp hx
        have hprobe : y.2.Keeps y.2.countProbe := keeps_of_scope sameStacks_countProbe rfl
        have hkeeps : c.Keeps z.2 := (keeps_run (steady_lift _) hy).trans
          (hprobe.trans (keeps_run (steady_lift _) hz))
        refine .goOn hkeeps rfl ?_
        exact List.forall_mem_cons.mpr ⟨hyes, Task.within_last rfl rfl⟩
      · refine performs_run (hgotoIf _ _ _ _) rfl ?_ h
        exact List.forall_mem_cons.mpr ⟨hyes, Task.within_last rfl rfl⟩
    · split at h
      · refine performs_run (hgotoIf _ _ _ _) rfl ?_ h
        exact List.forall_mem_append.mpr ⟨hno, Task.within_last rfl rfl⟩
      · refine performs_run (hgotoIf _ _ _ _) rfl ?_ h
        rw [List.forall_mem_append, List.forall_mem_append, List.forall_mem_cons,
          List.forall_mem_cons]
        exact ⟨⟨⟨hyes, Task.within_end rfl rfl, Task.within_last rfl rfl⟩, hno⟩,
          Task.within_last rfl rfl⟩

theorem performs_openLoop {l : Location} {start stop : String} {next : Option String}
    {body : List (Located Stmt)} {close : List Task} {st : Stmt} (hbody : sizeOf body < sizeOf st)
    (hclose : ∀ t ∈ close, t.Within (.lower l st))
    (h : c.openLoop l start stop next body close = .ok x) : c.Performs (.lower l st) x.1 x.2 := by
  obtain ⟨y, hy, hx⟩ := Outcome.bind_ok.mp h
  obtain rfl := Outcome.pure_ok.mp hx
  have hkeeps := keeps_run (steady_lift _) hy
  refine .openLoop _ hkeeps rfl ?_ (Nat.succ_pos _)
  simp only [List.forall_mem_append, List.forall_mem_map]
  exact ⟨Task.within_body hbody, ⟨fun _ _ => Task.within_end rfl rfl, hclose⟩,
    Task.within_last rfl rfl⟩

theorem performs_enterCall {l : Location} {call : Call Expr} {st : Stmt}
    (h : c.enterCall l call = .ok x) : c.Performs (.lower l st) x.1 x.2 := by
  obtain ⟨y, hy, hx⟩ := Outcome.bind_ok.mp h
  obtain rfl := Outcome.pure_ok.mp hx
  refine .expand (keeps_run ?_ hy) (expands_of_run hy) rfl
  refine steady_bind (steady_lift _) fun p => ?_
  have harguments := (c.site.stateless_bindArguments (fun _ => trivial) p call l).steady
  exact steady_bind harguments fun _ => steady_pure _

theorem performs_enter {l : Location} {st : Stmt} (h : c.enter l st = .ok x) :
    c.Performs (.lower l st) x.1 x.2 := by
  cases st with
  | expr e =>
    by_cases hcall : ∃ call, e = .call call
    · obtain ⟨call, rfl⟩ := hcall
      exact performs_enterCall h
    · have hact : c.act (fun s => s.lower (fun _ _ _ => pure ()) l (.expr e)) = .ok x := by
        cases e with
        | call call => exact absurd ⟨call, rfl⟩ hcall
        | _ => exact h
      refine performs_act ?_ rfl hact
      exact (c.site.stateless_expression (fun _ => trivial) fun call he => hcall ⟨call, he⟩).steady
  | call call => exact performs_enterCall h
  | asm i =>
    refine performs_act ?_ rfl h
    exact steady_bind (c.site.stateless_asm (fun _ => trivial) i).steady fun _ => steady_pure _
  | label name global => exact performs_act (steady_lift _) rfl h
  | goto name => exact performs_act (steady_lift _) rfl h
  | leave =>
    refine performs_act ?_ rfl h
    exact steady_bind (c.site.stateless_loopTarget l false).steady fun _ => steady_lift _
  | again =>
    refine performs_act ?_ rfl h
    exact steady_bind (c.site.stateless_loopTarget l true).steady fun _ => steady_lift _
  | branch condition yes no =>
    obtain ⟨y, hy, h⟩ := Outcome.bind_ok.mp h
    exact .of_keeps (keeps_run (c.site.stateless_resolve _).steady hy) rfl (performs_enterBranch h)
  | loop condition body =>
    cases condition with
    | none => exact performs_openLoop (by simp) (Task.within_last rfl rfl) h
    | some condition =>
      obtain ⟨y, hy, h⟩ := Outcome.bind_ok.mp h
      have hcounter := (c.site.stateless_counter (fun _ => trivial) condition).steady
      exact .of_keeps (keeps_run hcounter hy) rfl
        (performs_openLoop (by simp) (Task.within_last rfl rfl) h)
  | doWhile body condition =>
    refine performs_openLoop ?_ (Task.within_last rfl rfl) h
    simp only [Stmt.doWhile.sizeOf_spec]
    omega
  | block body =>
    obtain rfl := Outcome.pure_ok.mp h
    exact .goOn (.refl c) rfl (Task.within_body (by simp))
  | use a =>
    simp only [enter, act, does, bind_assoc, pure_bind] at h
    obtain ⟨y, hy, hx⟩ := Outcome.bind_ok.mp h
    obtain rfl := Outcome.pure_ok.mp hx
    exact .goOn (keeps_use hy) rfl (List.forall_mem_nil _)
  | saveRegs registers body =>
    obtain ⟨y, hy, hx⟩ := Outcome.bind_ok.mp h
    obtain rfl := Outcome.pure_ok.mp hx
    refine .goOn (d := y.2) (keeps_run ?_ hy) rfl ?_
    · refine steady_bind (stateless_mapM fun e _ => by simp).steady fun found => ?_
      exact steady_bind (steady_forM fun _ => steady_lift _) fun _ => steady_pure _
    · exact List.forall_mem_append.mpr ⟨Task.within_body (by simp), Task.within_last rfl rfl⟩
  | data block =>
    refine performs_act ?_ rfl h
    exact (c.site.stateless_data (fun _ => trivial) l block).steady

/-- What `Performs` says is all that can happen. -/
theorem performs_of_perform (h : c.perform task = .ok x) : c.Performs task x.1 x.2 := by
  cases task with
  | lower l st => exact performs_enter h
  | define l name => exact performs_act (steady_lift _) rfl h
  | goto l target => exact performs_act (steady_lift _) rfl h
  | count l counter start => exact performs_act (steady_lift _) rfl h
  | repeatIf l condition start =>
    refine performs_act ?_ rfl h
    exact steady_bind (c.site.stateless_resolve _).steady fun _ => c.site.steady_gotoIf _ _ _ _ _
  | popAll l saved =>
    refine performs_act ?_ rfl h
    exact steady_forM fun _ => steady_lift _
  | closeSkip l probe before => exact performs_act (steady_lift _) rfl h
  | leaveLoop =>
    cases h
    exact .leaveLoop
  | leaveExpansion =>
    cases h
    exact .leaveExpansion

end

theorem release_of_plain {task : Task} (h : task.leaves = false) : c.release task = c := by
  cases task with
  | leaveLoop => cases h
  | leaveExpansion => cases h
  | _ => rfl

/-- The context once all that is open for these tasks is closed. -/
def releaseAll (c : Context) (tasks : List Task) : Context := tasks.foldl release c

theorem releaseAll_of_plain {tasks : List Task} (h : ∀ t ∈ tasks, t.leaves = false) :
    c.releaseAll tasks = c := by
  induction tasks with
  | nil => rfl
  | cons task tasks ih =>
    rw [List.forall_mem_cons] at h
    change (c.release task).releaseAll tasks = c
    rw [release_of_plain h.1]
    exact ih h.2

theorem releaseAll_append (xs ys : List Task) :
    c.releaseAll (xs ++ ys) = (c.releaseAll xs).releaseAll ys := List.foldl_append

theorem Keeps.releaseAll (h : c.Keeps d) (tasks : List Task) :
    (c.releaseAll tasks).Keeps (d.releaseAll tasks) := by
  induction tasks generalizing c d with
  | nil => exact h
  | cons task tasks ih => exact ih (h.release task)

theorem leaves_ofBody (body : List (Located Stmt)) : ∀ t ∈ Task.ofBody body, t.leaves = false := by
  intro t ht
  obtain ⟨st, -, rfl⟩ := List.mem_map.mp ht
  rfl

/-- What a task has opened is what the tasks that it leaves will close. -/
theorem Performs.keeps {task : Task} {more : List Task} (h : c.Performs task more d) :
    (c.release task).Keeps (d.releaseAll more) := by
  cases h with
  | goOn keeps plain parts =>
    rw [release_of_plain plain, releaseAll_of_plain fun t ht => (parts t ht).plain]
    exact keeps
  | openLoop labels keeps plain parts whole =>
    rw [List.forall_mem_append] at parts
    rw [release_of_plain plain, releaseAll_append, releaseAll_append,
      releaseAll_of_plain fun t ht => (parts.1 t ht).plain,
      releaseAll_of_plain fun t ht => (parts.2 t ht).plain]
    exact keeps
  | expand keeps expands plain =>
    rw [release_of_plain plain, releaseAll_append, releaseAll_of_plain (leaves_ofBody _)]
    exact { keeps with }
  | leaveLoop => exact .refl _
  | leaveExpansion => exact .refl _

theorem Sound.leaveExpansion (h : c.Sound) : c.leaveExpansion.Sound := by
  refine ⟨?_, fun e he => h.declared e (List.mem_of_mem_tail he)⟩
  change (c.expansions.tail.map _).Nodup
  rw [List.map_tail]
  exact h.distinct.tail

theorem Sound.release (h : c.Sound) (task : Task) : (c.release task).Sound := by
  cases task with
  | leaveLoop => exact ⟨h.distinct, h.declared⟩
  | leaveExpansion => exact h.leaveExpansion
  | _ => exact h

theorem Performs.sound {task : Task} {more : List Task} (h : c.Performs task more d)
    (hc : c.Sound) : d.Sound := by
  cases h with
  | goOn keeps => exact hc.of_sameStacks keeps.toSameStacks
  | openLoop labels keeps =>
    have hd := hc.of_sameStacks keeps.toSameStacks
    exact ⟨hd.distinct, hd.declared⟩
  | expand keeps expands => exact hc.enterExpansion expands
  | leaveLoop => exact ⟨hc.distinct, hc.declared⟩
  | leaveExpansion => exact hc.leaveExpansion

end Context

namespace Walk

variable {w : Walk}

/-- The context once all that is open is closed. -/
def settled (w : Walk) : Context := w.context.releaseAll w.tasks

theorem Steps.keeps {v : Walk} (h : w.Steps v) : w.settled.Keeps v.settled := by
  cases h with
  | stay c fault => exact .refl _
  | release c task tasks e => exact .refl _
  | perform tasks h =>
    simp only [settled]
    rw [Context.releaseAll_append]
    exact (Context.performs_of_perform h).keeps.releaseAll tasks
  | @fail c task e tasks h =>
    -- Closing never fails, so the task that did has opened nothing and closes nothing.
    have hplain : task.leaves = false := by
      cases task with
      | leaveLoop => cases h
      | leaveExpansion => cases h
      | _ => rfl
    change ((c.release task).releaseAll tasks).Keeps (c.releaseAll tasks)
    rw [Context.release_of_plain hplain]
    exact .refl _

theorem Steps.sound {v : Walk} (h : w.Steps v) (hw : w.context.Sound) : v.context.Sound := by
  cases h with
  | stay c fault => exact hw
  | release c task tasks e => exact hw.release task
  | perform tasks h => exact (Context.performs_of_perform h).sound hw
  | fail tasks h => exact hw

theorem keeps_after (w : Walk) (k : Nat) : w.settled.Keeps (w.after k).settled := by
  induction k generalizing w with
  | zero => exact .refl _
  | succ k ih => exact w.steps_step.keeps.trans (ih w.step)

theorem sound_after (h : w.context.Sound) (k : Nat) : (w.after k).context.Sound := by
  induction k generalizing w with
  | zero => exact h
  | succ k ih => exact ih (w.steps_step.sound h)

theorem outlook_after (h : w.context.Sound) (k : Nat) : (w.after k).outlook = w.outlook := by
  induction k generalizing w with
  | zero => rfl
  | succ k ih => exact (ih (w.steps_step.sound h)).trans (w.steps_step.outlook h)

theorem after_add (w : Walk) (j k : Nat) : w.after (j + k) = (w.after j).after k := by
  induction j generalizing w with
  | zero => rw [Nat.zero_add]; rfl
  | succ j ih => rw [Nat.succ_add]; exact ih w.step

/-- Comes to its end. -/
def Ends (w : Walk) : Prop := ∃ k, (w.after k).tasks = []

/-- The walk with more to do after it. -/
def andThen (w : Walk) (tasks : List Task) : Walk := { w with tasks := w.tasks ++ tasks }

theorem step_andThen {tasks : List Task} (h : w.tasks ≠ []) :
    (w.andThen tasks).step = w.step.andThen tasks := by
  obtain ⟨c, _ | ⟨task, rest⟩, fault⟩ := w
  · exact absurd rfl h
  · cases fault with
    | some e => rfl
    | none =>
      cases hp : c.perform task with
      | error e => simp only [step, andThen, hp, List.cons_append]
      | ok x => simp only [step, andThen, hp, List.cons_append, List.append_assoc]

theorem after_of_nil (h : w.tasks = []) (k : Nat) : w.after k = w := by
  have hstep : w.step = w := by simp only [step, h]
  induction k with
  | zero => rfl
  | succ k ih =>
    change w.step.after k = w
    rw [hstep]
    exact ih

/-- Until it is at its end, a walk does not see what comes after. -/
theorem exists_after_andThen (tasks : List Task) {k : Nat} (h : (w.after k).tasks = []) :
    ∃ j, (w.andThen tasks).after j = (w.after k).andThen tasks := by
  induction k generalizing w with
  | zero => exact ⟨0, rfl⟩
  | succ k ih =>
    by_cases hw : w.tasks = []
    · rw [after_of_nil hw]
      exact ⟨0, rfl⟩
    · obtain ⟨j, hj⟩ := ih h
      exact ⟨j + 1, (congrArg (after · j) (step_andThen hw)).trans hj⟩

theorem ends_of_fault {c : Context} {tasks : List Task} {e : Located Error} :
    Ends ⟨c, tasks, some e⟩ := by
  induction tasks generalizing c with
  | nil => exact ⟨0, rfl⟩
  | cons task tasks ih =>
    obtain ⟨k, hk⟩ := ih (c := c.release task)
    exact ⟨k + 1, hk⟩

/-- What comes after the end is only begun if there was no fault. -/
theorem Ends.andThen {tasks : List Task} (h : w.Ends)
    (hrest : ∀ k, (w.after k).tasks = [] → Ends ⟨(w.after k).context, tasks, none⟩) :
    (w.andThen tasks).Ends := by
  obtain ⟨k, hk⟩ := h
  obtain ⟨j, hj⟩ := exists_after_andThen tasks hk
  have hends : ((w.after k).andThen tasks).Ends := by
    simp only [Walk.andThen, hk, List.nil_append]
    cases hfault : (w.after k).fault with
    | some e => exact ends_of_fault
    | none => exact hrest k hk
  obtain ⟨i, hi⟩ := hends
  refine ⟨j + i, ?_⟩
  rw [after_add, hj]
  exact hi

theorem Ends.of_step (h : w.step.Ends) : w.Ends := by
  obtain ⟨k, hk⟩ := h
  exact ⟨k + 1, hk⟩

/-- At its end, a walk has closed all that it has opened. -/
theorem keeps_of_ended {k : Nat} (h : (w.after k).tasks = []) :
    w.settled.Keeps (w.after k).context := by
  have hkeeps := w.keeps_after k
  simp only [settled, h] at hkeeps
  exact hkeeps

/-- One task after the other ends if each of them does, but for the last one of an expansion. -/
theorem ends_all {n : Nat} {tasks : List Task} {c : Context}
    (htasks : ∀ t ∈ tasks, t ≠ .leaveExpansion ∧
      ∀ c : Context, c.Sound → c.depth = n → Ends ⟨c, [t], none⟩)
    (hc : c.Sound) (hn : c.depth = n) : Ends ⟨c, tasks, none⟩ := by
  induction tasks generalizing c with
  | nil => exact ⟨0, rfl⟩
  | cons task tasks ih =>
    rw [List.forall_mem_cons] at htasks
    obtain ⟨⟨htask, hends⟩, htasks⟩ := htasks
    refine (hends c hc hn).andThen fun k hk => ?_
    have hsound := sound_after (w := ⟨c, [task], none⟩) hc k
    have hkeeps : (c.release task).Keeps _ := keeps_of_ended hk
    have hdepth : (c.release task).depth = n := by
      cases task with
      | leaveExpansion => exact absurd rfl htask
      | _ => exact hn
    exact ih htasks hsound (hkeeps.depth.trans hdepth)

/-- Every walk ends: a statement leads to smaller ones, and an expansion to fewer expansions. -/
theorem ends_task (n : Nat) (task : Task) (c : Context) (hc : c.Sound) (hn : c.depth = n) :
    Ends ⟨c, [task], none⟩ := by
  -- The outer induction is on how deep expansions may still nest, the inner one on the statement.
  induction n using Nat.strong_induction_on generalizing task c with
  | _ n ihn =>
    induction hsize : task.size using Nat.strong_induction_on generalizing task c with
    | _ size ihsize =>
      have hpart {t : Task} (ht : t.size < size) (hplain : t ≠ .leaveExpansion) :
          t ≠ .leaveExpansion ∧ ∀ c : Context, c.Sound → c.depth = n → Ends ⟨c, [t], none⟩ :=
        ⟨hplain, fun c hc hn => ihsize t.size ht t c hc hn rfl⟩
      apply Ends.of_step
      cases hp : c.perform task with
      | error e =>
        simp only [step, hp]
        exact ⟨0, rfl⟩
      | ok x =>
        obtain ⟨more, d⟩ := x
        simp only [step, hp, List.append_nil]
        have hperforms := Context.performs_of_perform hp
        have hd := hperforms.sound hc
        cases hperforms with
        | goOn keeps plain parts =>
          refine ends_all (fun t ht => ?_) hd (keeps.depth.trans hn)
          exact hpart (hsize ▸ (parts t ht).smaller) (parts t ht).ne_leaveExpansion
        | openLoop labels keeps plain parts whole =>
          refine ends_all (fun t ht => ?_) hd (keeps.depth.trans hn)
          by_cases hleave : t = .leaveLoop
          · subst hleave
            exact hpart (hsize ▸ whole) (by simp)
          · have hparts := parts t (by simpa [hleave] using ht)
            exact hpart (hsize ▸ hparts.smaller) hparts.ne_leaveExpansion
        | @expand _ p e keeps expands plain =>
          have hlt : (e.enterExpansion p).depth < n := by
            have hdepth := hc.depth_enterExpansion expands
            omega
          have hbody : Ends ⟨e.enterExpansion p, Task.ofBody p.body, none⟩ := by
            refine ends_all (fun t ht => ⟨?_, fun c hc hn => ihn _ hlt t c hc hn⟩) hd rfl
            rintro rfl
            cases Context.leaves_ofBody p.body _ ht
          exact hbody.andThen fun _ _ => ⟨1, rfl⟩
        | leaveLoop => exact ⟨0, rfl⟩
        | leaveExpansion => exact ⟨0, rfl⟩

end Walk

end Avr
