import Avr.Compile
import Avr.Proofs.WrittenCode

namespace Avr

/-- What the statements of a procedure are lowered in. -/
structure Context where
  globals : Globals
  procedure : Procedure
  /-- Aliases of the innermost scope. -/
  scope : Aliases := []
  /-- Aliases of the scopes around it, the nearest first. -/
  enclosing : List Aliases := []
  /-- The innermost first, as the loops are. -/
  expansions : List Expansion := []
  loops : List LoopLabels := []
  counters : Counters := {}
  /-- How many instructions there were so far. -/
  instructions : Nat := 0
  outputs : Outputs
  warnings : List (Located Warning) := []

namespace Context

/-- The place that the context stands for. -/
def site (c : Context) : Scope where
  globals := c.globals
  procedure := some c.procedure
  expansions := c.expansions
  outer := c.enclosing.flatten
  loop := c.loops.head?

def progress (c : Context) : Progress := ⟨c.counters, c.scope⟩

/-- The names in force. -/
def names (c : Context) : Names := c.site.names c.scope

/-- Lays out what was emitted. A label that is there already is a fault. -/
def absorb (c : Context) (t : Trace α) : Checked (α × Context) := do
  let outputs ← c.outputs.emitAll t.emitted
  let a ← t.outcome
  return (a, { c with
    outputs
    instructions := c.instructions + t.emitted.countP Emission.isInstruction
    warnings := c.warnings ++ t.warnings })

def record (c : Context) (p : Progress) : Context :=
  { c with scope := p.aliases, counters := p.toCounters }

/-- Runs code at the place of the context. -/
def run (c : Context) (code : Scope → Lowering α) : Checked (α × Context) := do
  let x ← c.absorb (code c.site c.progress)
  return (x.1.1, x.2.record x.1.2)

/-- The context after code that gives no value. -/
def does (c : Context) (code : Scope → Lowering Unit) : Checked Context := do
  let x ← c.run code
  return x.2

def enterLoop (c : Context) (labels : LoopLabels) : Context := { c with loops := labels :: c.loops }

def leaveLoop (c : Context) : Context := { c with loops := c.loops.tail }

/-- An expansion has a scope of its own. -/
def enterExpansion (c : Context) (p : Procedure) : Context :=
  { c with
    expansions := ⟨p, "_inl" ++ toString c.counters.inlined⟩ :: c.expansions
    scope := []
    enclosing := c.scope :: c.enclosing
    counters := { c.counters with inlined := c.counters.inlined + 1 } }

def leaveExpansion (c : Context) : Context :=
  { c with
    expansions := c.expansions.tail
    scope := c.enclosing.headD c.scope
    enclosing := c.enclosing.tail }

def countProbe (c : Context) : Context :=
  { c with counters := { c.counters with probes := c.counters.probes + 1 } }

end Context

/-- What is to be done next, or later. -/
inductive Task
  | lower (l : Location) (st : Stmt)
  | define (l : Location) (name : String)
  | goto (l : Location) (target : LabelRef)
  /-- The end of a loop that counts. -/
  | count (l : Location) (counter : Counter) (start : LabelRef)
  /-- The end of a loop with a condition. -/
  | repeatIf (l : Location) (condition : Located Expr) (start : String)
  | popAll (l : Location) (saved : List Reg)
  /-- The end of a statement that may be skipped, with what `instructions` was at its start. -/
  | closeSkip (l : Location) (probe before : Nat)
  | leaveLoop
  | leaveExpansion

namespace Task

def ofBody (body : List (Located Stmt)) : List Task := body.map fun st => lower st.location st.value

end Task

/-- What is skipped has to be a single instruction of one word. -/
def Trace.closeSkip (l : Location) (probe found : Nat) : Trace Unit := do
  let start := "?probe" ++ toString probe ++ "_start"
  let stop := "?probe" ++ toString probe ++ "_end"
  Trace.define l stop
  Trace.emit (.limit ⟨start, stop, 2, l⟩)
  if found ≤ 1 then return else Trace.throw l (.budget (.singleInstruction found))

namespace Context

/-- Runs code after which nothing is left to do. -/
def act (c : Context) (code : Scope → Lowering Unit) : Checked (List Task × Context) := do
  let c ← c.does code
  return ([], c)

/-- Moves the arguments and goes to the body of the procedure. -/
def enterCall (c : Context) (l : Location) (call : Call Expr) : Checked (List Task × Context) := do
  let x ← c.run fun s => do
    let p ← s.inlineProcedure l call.name.value
    s.bindArguments p call l
    return p
  return (Task.ofBody x.1.body ++ [.leaveExpansion], x.2.enterExpansion x.1)

/-- Goes on with the branches of a condition. -/
def enterBranch (c : Context) (l : Location) (v : Value) (yes : Located Stmt)
    (no : Option (Located Stmt)) : Checked (List Task × Context) :=
  let body : Task := .lower yes.location yes.value
  let otherwise := Task.ofBody no.toList
  let stem := c.site.generated "if" l
  let stop := c.site.generated "if_end" l
  match c.site.jump? yes.location yes.value with
  | some target => do
    let x ← c.run fun s => do s.gotoIf l true v (← target) stem
    return (otherwise, x.2)
  | none =>
    if no.all (·.value.isEmpty) then
      match yes.value.skip? v with
      | some (m, a, b) => do
        let x ← c.run fun s => s.place l (Selection.emit m [a, b])
        let probe := x.2.counters.probes
        let y ← x.2.countProbe.run fun _ =>
          Trace.define yes.location ("?probe" ++ toString probe ++ "_start")
        return ([body, .closeSkip yes.location probe y.2.instructions], y.2)
      | none => do
        let x ← c.run fun s => s.gotoIf l false v (.plain stop) stem
        return ([body, .define l stop], x.2)
    else if yes.value.isEmpty then do
      let x ← c.run fun s => s.gotoIf l true v (.plain stop) stem
      return (otherwise ++ [.define l stop], x.2)
    else do
      let other := c.site.generated "if_else" l
      let x ← c.run fun s => s.gotoIf l false v (.plain other) stem
      return ([body, .goto l (.plain stop), .define l other] ++ otherwise ++ [.define l stop], x.2)

/-- Starts a loop. The tasks at its end follow the label for `continue`, if there is one. -/
def openLoop (c : Context) (l : Location) (start stop : String) (next : Option String)
    (body : List (Located Stmt)) (close : List Task) : Checked (List Task × Context) := do
  let x ← c.run fun _ => Trace.define l start
  return (Task.ofBody body ++ [.leaveLoop] ++ (next.toList.map (.define l) ++ close ++
    [.define l stop]), x.2.enterLoop ⟨next.getD start, stop⟩)

/-- Starts a statement. What has parts goes on with them, all else is done at once. -/
def enter (c : Context) (l : Location) : Stmt → Checked (List Task × Context)
  | .expr (.call call) | .call call => c.enterCall l call
  | .branch condition yes no => do
    let x ← c.run (·.resolve condition)
    x.2.enterBranch l x.1 yes no
  | .loop none body =>
    let start := c.site.generated "loop" l
    c.openLoop l start (c.site.generated "loopEnd" l) none body [.goto l (.plain start)]
  | .loop (some condition) body => do
    let start := c.site.generated "loop" l
    let next := if anyContinues body then some (c.site.generated "loopNext" l) else none
    let x ← c.run (·.counter condition)
    x.2.openLoop l start (c.site.generated "loopEnd" l) next body [.count l x.1 (.plain start)]
  | .doWhile body condition =>
    let start := c.site.generated "do" l
    let next := if anyContinues body then some (c.site.generated "doNext" l) else none
    c.openLoop l start (c.site.generated "doEnd" l) next body [.repeatIf l condition start]
  | .block body => return (Task.ofBody body, c)
  | .saveRegs registers body => do
    let x ← c.run fun s => do
      let saved := (← registers.mapM s.savedRegisters).flatten
      saved.forM fun r => s.place l (Selection.onReg .push r)
      return saved
    return (Task.ofBody body ++ [.popAll l x.1.reverse], x.2)
  | st => c.act fun s => s.lower (fun _ _ _ => pure ()) l st

/-- What is left to do after the task, and in which context. -/
def perform (c : Context) : Task → Checked (List Task × Context)
  | .lower l st => c.enter l st
  | .define l name => c.act fun _ => Trace.define l name
  | .goto l target => c.act (·.goto l target)
  | .count l counter start => c.act (·.place l (counter.update start))
  | .repeatIf l condition start => c.act fun s => do
    s.gotoIf l true (← s.resolve condition) (.plain start) (s.generated "while" l)
  | .popAll l saved => c.act fun s => saved.forM fun r => s.place l (Selection.onReg .pop r)
  | .closeSkip l probe before =>
    c.act fun _ => Trace.closeSkip l probe (c.instructions - before)
  | .leaveLoop => .ok ([], c.leaveLoop)
  | .leaveExpansion => .ok ([], c.leaveExpansion)

/-- All that is done of a task after a fault. -/
def release (c : Context) : Task → Context
  | .leaveLoop => c.leaveLoop
  | .leaveExpansion => c.leaveExpansion
  | _ => c

end Context

/-- How far lowering has come. -/
structure Walk where
  context : Context
  tasks : List Task
  fault : Option (Located Error) := none

namespace Walk

def step (w : Walk) : Walk :=
  match w.tasks with
  | [] => w
  | task :: tasks =>
    match w.fault with
    | some _ => { w with context := w.context.release task, tasks }
    | none =>
      match w.context.perform task with
      | .ok x => { context := x.2, tasks := x.1 ++ tasks }
      | .error e => { w with tasks, fault := some e }

/-- All that a step can be. -/
inductive Steps : Walk → Walk → Prop
  | stay (c : Context) (fault : Option (Located Error)) : Steps ⟨c, [], fault⟩ ⟨c, [], fault⟩
  | release (c : Context) (task : Task) (tasks : List Task) (e : Located Error) :
      Steps ⟨c, task :: tasks, some e⟩ ⟨c.release task, tasks, some e⟩
  | perform {c : Context} {task : Task} {x : List Task × Context} (tasks : List Task)
      (h : c.perform task = .ok x) : Steps ⟨c, task :: tasks, none⟩ ⟨x.2, x.1 ++ tasks, none⟩
  | fail {c : Context} {task : Task} {e : Located Error} (tasks : List Task)
      (h : c.perform task = .error e) : Steps ⟨c, task :: tasks, none⟩ ⟨c, tasks, some e⟩

theorem steps_step (w : Walk) : w.Steps w.step := by
  obtain ⟨c, tasks, fault⟩ := w
  cases tasks with
  | nil => exact .stay c fault
  | cons task tasks =>
    cases fault with
    | some e => exact .release c task tasks e
    | none =>
      cases hp : c.perform task with
      | ok x =>
        simp only [step, hp]
        exact .perform tasks hp
      | error e =>
        simp only [step, hp]
        exact .fail tasks hp

/-- The walk after so many steps. -/
def after (w : Walk) : Nat → Walk
  | 0 => w
  | k + 1 => w.step.after k

/-- What the walk has come to. -/
def result (w : Walk) : Checked Context :=
  match w.fault with
  | none => .ok w.context
  | some e => .error e

end Walk

namespace Context

/-- The walk that lowers these statements. -/
def walk (c : Context) (body : List (Located Stmt)) : Walk :=
  { context := c, tasks := Task.ofBody body }

variable {c d : Context}

/-- Nothing was opened in between that is not closed again. -/
structure SameStacks (c d : Context) : Prop where
  globals : d.globals = c.globals
  procedure : d.procedure = c.procedure
  enclosing : d.enclosing = c.enclosing
  expansions : d.expansions = c.expansions
  loops : d.loops = c.loops

theorem SameStacks.site (h : c.SameStacks d) : d.site = c.site := by
  simp only [Context.site, h.globals, h.procedure, h.enclosing, h.expansions, h.loops]

theorem SameStacks.trans {e : Context} (h : c.SameStacks d) (h' : d.SameStacks e) :
    c.SameStacks e where
  globals := h'.globals.trans h.globals
  procedure := h'.procedure.trans h.procedure
  enclosing := h'.enclosing.trans h.enclosing
  expansions := h'.expansions.trans h.expansions
  loops := h'.loops.trans h.loops

theorem absorb_bind (t : Trace α) (f : α → Trace β) :
    c.absorb (t >>= f) = c.absorb t >>= fun x => x.2.absorb (f x.1) := by
  cases h : t.outcome with
  | error e =>
    rw [Trace.bind_error h]
    simp only [absorb, h]
    cases c.outputs.emitAll t.emitted <;> rfl
  | ok a =>
    rw [Trace.bind_ok h]
    simp only [absorb, h, Outputs.emitAll, List.foldlM_append, List.countP_append, bind_assoc,
      ← Nat.add_assoc, ← List.append_assoc]
    rfl

theorem absorb_pure (a : α) : c.absorb (pure a) = .ok (a, c) := by
  simp [absorb, pure, Outputs.emitAll, Except.pure, bind, Except.bind]

theorem absorb_record (p : Progress) (t : Trace α) :
    (c.record p).absorb t = c.absorb t >>= fun x => .ok (x.1, x.2.record p) := by
  simp only [absorb, record, bind_assoc]
  rfl

theorem sameStacks_absorb {t : Trace α} {x : α × Context} (h : c.absorb t = .ok x) :
    c.SameStacks x.2 := by
  simp only [absorb, Outcome.bind_ok, Outcome.pure_ok] at h
  obtain ⟨o, -, a, -, rfl⟩ := h
  exact ⟨rfl, rfl, rfl, rfl, rfl⟩

theorem sameStacks_run {code : Scope → Lowering α} {x : α × Context} (h : c.run code = .ok x) :
    c.SameStacks x.2 := by
  simp only [run, Outcome.bind_ok, Outcome.pure_ok] at h
  obtain ⟨y, hy, rfl⟩ := h
  exact { sameStacks_absorb hy with }

theorem run_pure (a : α) : c.run (fun _ => pure a) = .ok (a, c) := by
  change c.absorb (pure (a, c.progress)) >>= _ = _
  rw [absorb_pure]
  rfl

theorem run_bind (f : Scope → Lowering α) (g : Scope → α → Lowering β) :
    c.run (fun s => f s >>= g s) = c.run f >>= fun x => x.2.run (g · x.1) := by
  change c.absorb (f c.site c.progress >>= fun y => g c.site y.1 y.2) >>= _ = _
  rw [absorb_bind, bind_assoc]
  simp only [run, bind_assoc]
  refine Outcome.bind_eq_of_ok fun x hx => ?_
  rw [pure_bind, absorb_record, bind_assoc, ← (sameStacks_absorb hx).site]
  rfl

theorem does_bind (f : Scope → Lowering α) (g : Scope → α → Lowering Unit) :
    c.does (fun s => f s >>= g s) = c.run f >>= fun x => x.2.does (g · x.1) := by
  simp only [does, run_bind, bind_assoc]

/-- A part without a value. -/
theorem does_seq (f : Scope → Lowering Unit) (g : Scope → Lowering Unit) :
    c.does (fun s => f s >>= fun _ => g s) = c.does f >>= fun d => d.does g := by
  rw [does_bind f fun s _ => g s]
  simp only [does, bind_assoc, pure_bind]

theorem does_site {s : Scope} (hs : c.site = s) (code : Scope → Lowering Unit) :
    c.does code = c.does fun _ => code s := by
  subst hs
  rfl

theorem does_pure : c.does (fun _ => pure ()) = .ok c := by
  simp only [does, run_pure]
  rfl

theorem sameStacks_does {code : Scope → Lowering Unit} (h : c.does code = .ok d) :
    c.SameStacks d := by
  simp only [does, Outcome.bind_ok, Outcome.pure_ok] at h
  obtain ⟨x, hx, rfl⟩ := h
  exact sameStacks_run hx

theorem run_ok {code : Scope → Lowering α} {x : α × Context} (h : c.run code = .ok x) :
    ∃ es q, (code c.site c.progress).Yields es (x.1, q) ∧ x.2.scope = q.aliases ∧
      c.SameStacks x.2 := by
  have hsame := sameStacks_run h
  simp only [run, absorb, Outcome.bind_ok, Outcome.pure_ok] at h
  obtain ⟨y, ⟨o, -, z, hz, rfl⟩, rfl⟩ := h
  exact ⟨_, z.2, ⟨rfl, hz⟩, rfl, hsame⟩

end Context

end Avr
