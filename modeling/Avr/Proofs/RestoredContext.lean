import Avr.Proofs.BoundNames
import Avr.Proofs.LabelTally
import Avr.Proofs.Origins
import Avr.Proofs.SkipIdiom
import Avr.Proofs.WalkSteps

namespace Avr

namespace Build

open Trace

/-- What stands before the body of a procedure. -/
def announce (p : Procedure) : Building Unit := do
  placeCode
  Trace.define p.name.location p.name.value
  Trace.emit (.declare p.name.value .global)

theorem procedure_eq {p : Procedure} (h : p.inline = false) :
    procedure p = (do
      announce p
      counting fun g => Scope.lowerBody { globals := g, procedure := some p } p.body) := by
  simp only [procedure, announce, h, Bool.false_eq_true, if_false, bind_assoc]

/-- A program up to a procedure and through its body. -/
theorem through_procedure (program : Program) (pre : List (Located Item)) (l : Location)
    {p : Procedure} (hp : p.inline = false) :
    through program (pre ++ [⟨l, .procedure p⟩]) = (do
      through program pre
      announce p) >>= fun _ =>
      counting fun g => Scope.lowerBody { globals := g, procedure := some p } p.body := by
  simp only [through, List.forM_eq_forM, List.forM_append, List.forM_cons, List.forM_nil, item,
    procedure_eq hp, bind_assoc, bind_pure_unit]

/-- A program up to some item, and the rest. -/
theorem program_append {program : Program} {xs ys : List (Located Item)}
    (h : program.items = xs ++ ys) :
    Build.program program = through program xs >>= fun _ => (do
      ys.forM item
      rejectOrigin) := by
  rw [program_eq, h]
  simp only [through, List.forM_eq_forM, List.forM_append, bind_assoc]

theorem after_of_quiet {code : Building α} (h : Quiet code) (b : Build) :
    After code b fun _ c => c.globals.procedures = b.globals.procedures :=
  fun _ _ _ hy => congrArg Prod.snd ((h b).keeps _ _ hy.2)

theorem after_announce (p : Procedure) (b : Build) :
    After (announce p) b fun _ c => c.globals = b.globals := by
  rw [announce, after_bind]
  apply after_placeCode
  simp only [after_bind, after_lift, implies_true]

/-- Items leave the list of procedures as it is. -/
theorem after_item_procedures (i : Located Item) (b : Build) :
    After (item i) b fun _ c => c.globals.procedures = b.globals.procedures := by
  obtain ⟨l, i⟩ := i
  cases i with
  | directive name args => exact after_of_quiet (quiet_directive name args) b
  | procedure p =>
    cases hp : p.inline with
    | true =>
      simp only [item, procedure, hp, if_true]
      exact after_of_quiet quiet_rejectOrigin b
    | false =>
      simp only [item, procedure_eq hp, after_bind]
      refine (after_announce p b).imp fun _ c hc => ?_
      exact after_counting fun _ => congrArg Globals.procedures hc
  | externalProcedure p => exact after_of_quiet quiet_rejectOrigin b
  | var decl => exact after_of_quiet (quiet_declareVariable decl) b
  | externalVar decl => exact after_of_quiet (quiet_declareExternal decl) b
  | pin name target => exact after_of_quiet (quiet_declarePin name target) b
  | use a => exact after_of_quiet (quiet_declareAlias a) b
  | label name =>
    simp only [item, after_bind]
    apply after_placeCode
    simp only [after_lift, implies_true]
  | data block => exact after_of_quiet (quiet_data l block) b

theorem after_items_procedures (items : List (Located Item)) (b : Build) :
    After (items.forM item) b fun _ c => c.globals.procedures = b.globals.procedures := by
  induction items generalizing b with
  | nil => exact after_pure.mpr rfl
  | cons i items ih =>
    refine after_bind.mpr ((after_item_procedures i b).imp fun _ c hc => ?_)
    exact (ih c).imp fun _ d hd => hd.trans hc

/-- At every item, the procedures of the whole program are known. -/
theorem after_through_procedures (program : Program) (items : List (Located Item)) {b : Build}
    (hb : b.globals.procedures = []) :
    After (through program items) b fun _ c => c.globals.procedures = program.procedures := by
  have hdeclare : After (declareProcedures program.items) b fun _ c =>
      c.globals.procedures = program.procedures := by
    intro es u c hy
    obtain ⟨rfl, -⟩ := declareProcedures_ok hy.2
    simp [hb, Program.procedures]
  have hopening : After (opening program) b fun _ c =>
      c.globals.procedures = program.procedures := by
    refine after_bind.mpr (hdeclare.imp fun _ c hc => ?_)
    cases program.vectors with
    | some table => exact after_counting fun _ => hc
    | none => exact after_pure.mpr hc
  refine after_bind.mpr (hopening.imp fun _ c hc => ?_)
  exact (after_items_procedures items c).imp fun _ d hd => hd.trans hc

end Build

namespace Context

/-- Before anything is lowered. -/
def outset (device : Device) (outputs : Outputs) (p : Procedure) : Context where
  globals := { device }
  procedure := p
  outputs := outputs

end Context

namespace Program

open Trace

/-- Where `compile` begins. -/
def outset (device : Device) (outputs : Outputs) : Build :=
  { globals := { device }, links := outputs.linksExternals }

/-- The context in which `compile` comes to the body of a procedure, after the items before it. -/
def bodyContext (program : Program) (device : Device) (outputs : Outputs)
    (pre : List (Located Item)) (p : Procedure) : Checked Context := do
  let t := (do Build.through program pre; Build.announce p : Building Unit) (outset device outputs)
  let x ← (Context.outset device outputs p).absorb t
  return { x.2 with globals := x.1.2.globals, counters := x.1.2.counters }

variable {program : Program} {device : Device} {outputs : Outputs} {pre post : List (Located Item)}
  {l : Location} {p : Procedure} {c : Context}

theorem procedures_bodyContext (h : program.bodyContext device outputs pre p = .ok c) :
    c.globals.procedures = program.procedures := by
  simp only [bodyContext, Context.absorb, Outcome.bind_ok, Outcome.pure_ok] at h
  obtain ⟨x, ⟨o, -, y, hy, rfl⟩, rfl⟩ := h
  have hthrough := Build.after_through_procedures program pre (b := outset device outputs) rfl
  have hafter : After (do Build.through program pre; Build.announce p) (outset device outputs)
      fun _ d => d.globals.procedures = program.procedures := by
    refine after_bind.mpr (hthrough.imp fun _ d hd => ?_)
    exact (Build.after_announce p d).imp fun _ f hf => (congrArg Globals.procedures hf).trans hd
  exact hafter _ _ _ ⟨rfl, hy⟩

/-- Nothing is expanded yet. -/
theorem expansions_bodyContext (h : program.bodyContext device outputs pre p = .ok c) :
    c.expansions = [] := by
  simp only [bodyContext, Context.absorb, Outcome.bind_ok, Outcome.pure_ok] at h
  obtain ⟨x, ⟨o, -, y, -, rfl⟩, rfl⟩ := h
  rfl

/-- What `compile` has laid out after these items, or the first fault in them. -/
def upTo (program : Program) (device : Device) (outputs : Outputs) (items : List (Located Item)) :
    Checked Outputs := do
  let t := Build.through program items (outset device outputs)
  let outputs ← outputs.emitAll t.emitted
  let _ ← t.outcome
  return outputs

theorem upTo_eq (items : List (Located Item)) :
    program.upTo device outputs items =
      (Context.outset device outputs p).absorb
        (Build.through program items (outset device outputs)) >>= fun x => .ok x.2.outputs := by
  simp only [upTo, Context.absorb, bind_assoc]
  rfl

/-- A program comes to the first fault of its items. -/
theorem compile_of_upTo {e : Located Error}
    (hitems : program.items = pre ++ ⟨l, .procedure p⟩ :: post)
    (h : program.upTo device outputs (pre ++ [⟨l, .procedure p⟩]) = .error e) :
    compile device program outputs = .error e := by
  have hcompile : compile device program outputs =
      (Context.outset device outputs p).absorb (program.lower device outputs.linksExternals) >>=
        fun x => .ok ⟨x.2.outputs, x.2.warnings⟩ := by
    simp only [compile, Context.absorb, bind_assoc]
    rfl
  have hsplit : program.items = (pre ++ [⟨l, .procedure p⟩]) ++ post := by simp [hitems]
  have hlower : program.lower device outputs.linksExternals =
      Build.through program (pre ++ [⟨l, .procedure p⟩]) (outset device outputs) >>= fun x =>
        (do post.forM Build.item; Build.rejectOrigin : Building Unit).run' x.2 := by
    rw [Program.lower, Build.program_append hsplit]
    simp only [StateT.run'_eq, StateT.run_bind, map_bind]
    rfl
  rw [upTo_eq (p := p)] at h
  rw [hcompile, hlower, Context.absorb_bind]
  rcases Outcome.bind_error.mp h with hfault | ⟨_, _, hok⟩
  · rw [hfault]
    rfl
  · cases hok

/-- The body of a procedure is lowered in its context. -/
theorem upTo_procedure (hp : p.inline = false)
    (h : program.bodyContext device outputs pre p = .ok c) :
    program.upTo device outputs (pre ++ [⟨l, .procedure p⟩]) =
      c.does (·.lowerBody p.body) >>= fun d => .ok d.outputs := by
  have hthrough (b : Build) : Build.through program (pre ++ [⟨l, .procedure p⟩]) b =
      (do Build.through program pre; Build.announce p : Building Unit) b >>= fun x =>
        Build.counting (fun g => Scope.lowerBody { globals := g, procedure := some p } p.body)
          x.2 := by
    rw [Build.through_procedure program pre l hp]
    rfl
  rw [upTo_eq (p := p), hthrough, Context.absorb_bind]
  obtain ⟨x, hx, hc⟩ := Outcome.bind_ok.mp h
  obtain rfl := Outcome.pure_ok.mp hc
  rw [hx]
  simp only [Context.absorb, Outcome.bind_ok, Outcome.pure_ok] at hx
  obtain ⟨o, -, y, -, rfl⟩ := hx
  change ((Context.absorb _ _) >>= _) = _
  rw [Build.counting_eq, Context.absorb_bind]
  simp only [Context.absorb_pure]
  simp only [Context.does, Context.run, Context.absorb, bind_assoc]
  rfl

end Program

namespace Context

variable {c : Context}

theorem globals_releaseAll (tasks : List Task) : (c.releaseAll tasks).globals = c.globals := by
  induction tasks generalizing c with
  | nil => rfl
  | cons task tasks ih =>
    refine (ih (c := c.release task)).trans ?_
    cases task <;> rfl

end Context

namespace Walk

variable {w : Walk}

theorem globals_after (w : Walk) (k : Nat) : (w.after k).context.globals = w.context.globals := by
  have hkeeps := (keeps_after w k).globals
  simpa only [settled, Context.globals_releaseAll] using hkeeps

/-- A walk that has ended has come to what it was bound to come to. -/
theorem result_of_ended (h : w.context.Sound) {k : Nat} (hk : (w.after k).tasks = []) :
    (w.after k).result = w.outlook := by
  rw [← outlook_after h k]
  unfold result outlook
  cases (w.after k).fault with
  | some e => rfl
  | none => rw [hk]; rfl

end Walk

namespace Context

variable {c : Context}

theorem ends_walk (hc : c.Sound) (body : List (Located Stmt)) : (c.walk body).Ends := by
  refine Walk.ends_all (fun t ht => ⟨?_, Walk.ends_task c.depth t⟩) hc rfl
  rintro rfl
  cases leaves_ofBody body _ ht

/-- At its end, the walk has put back what it has opened. -/
theorem keeps_walk {body : List (Located Stmt)} {k : Nat}
    (h : ((c.walk body).after k).tasks = []) : c.Keeps ((c.walk body).after k).context := by
  have hkeeps := Walk.keeps_of_ended h
  have hstart : (c.walk body).settled = c := releaseAll_of_plain (leaves_ofBody body)
  rw [hstart] at hkeeps
  exact hkeeps

theorem outlook_walk (body : List (Located Stmt)) :
    (c.walk body).outlook = c.does (·.lowerAll (Scope.expandUpTo c.depth) body) := by
  rw [does_site rfl]
  exact completes_body body c rfl rfl

theorem outlook_statement (l : Location) (st : Stmt) :
    (c.walk [⟨l, st⟩]).outlook = c.does (·.lower (Scope.expandUpTo c.depth) l st) := by
  rw [does_site rfl]
  exact completes_lower l st c rfl rfl

end Context

/-- The walk through a body does what `compile` does with it. At any point of it, every statement is
lowered to the end with what the recursive lowering finds, and leaves the context as it was, after a
fault as well. All the while the procedures being expanded are different inline procedures of the
program, and names are looked up to their end unless they lead in a circle. -/
theorem lowering_restores_context {program : Program} {device : Device} {outputs : Outputs}
    {pre post : List (Located Item)} {pl : Location} {p : Procedure} {start : Context}
    (hitems : program.items = pre ++ ⟨pl, .procedure p⟩ :: post) (hp : p.inline = false)
    (hstart : program.bodyContext device outputs pre p = .ok start) :
    (∃ k, ((start.walk p.body).after k).tasks = [] ∧
      Context.outputs <$> ((start.walk p.body).after k).result =
        program.upTo device outputs (pre ++ [⟨pl, .procedure p⟩]) ∧
      ∀ e, ((start.walk p.body).after k).fault = some e →
        compile device program outputs = .error e) ∧
    ∀ k c, ((start.walk p.body).after k).context = c → ∀ l st,
      (∃ j, ((c.walk [⟨l, st⟩]).after j).tasks = [] ∧
        ((c.walk [⟨l, st⟩]).after j).result = c.does (·.lower (Scope.expandUpTo c.depth) l st) ∧
        c.Keeps ((c.walk [⟨l, st⟩]).after j).context) ∧
      ∀ j d, ((c.walk [⟨l, st⟩]).after j).context = d →
        d.globals.procedures = program.procedures ∧ d.Sound ∧
        d.expansions.length ≤ (program.procedures.filter (·.inline)).length ∧
        (d.names.Acyclic → d.names.Ends) := by
  have hexpansions := Program.expansions_bodyContext hstart
  have hsound : start.Sound := ⟨by simp [hexpansions], by simp [hexpansions]⟩
  have hprocedures := Program.procedures_bodyContext hstart
  constructor
  · obtain ⟨k, hk⟩ := Context.ends_walk hsound p.body
    have hresult : ((start.walk p.body).after k).result = start.does (·.lowerBody p.body) := by
      have hdepth : start.depth = start.globals.procedures.length := by
        simp [Context.depth, hexpansions]
      rw [Walk.result_of_ended hsound hk, Context.outlook_walk, hdepth]
      rfl
    have hupTo := Program.upTo_procedure (l := pl) hp hstart
    refine ⟨k, hk, ?_, fun e he => ?_⟩
    · rw [hupTo, ← hresult]
      exact map_eq_pure_bind _ _
    · apply Program.compile_of_upTo hitems
      rw [hupTo, ← hresult]
      simp only [Walk.result, he]
      rfl
  · intro k c hk l st
    have hc : c.Sound := hk ▸ Walk.sound_after hsound k
    constructor
    · obtain ⟨j, hj⟩ := Context.ends_walk hc [⟨l, st⟩]
      refine ⟨j, hj, ?_, Context.keeps_walk hj⟩
      exact (Walk.result_of_ended hc hj).trans (Context.outlook_statement l st)
    · intro j d hd
      have hsound' : d.Sound := hd ▸ Walk.sound_after hc j
      have hglobals : d.globals.procedures = program.procedures := by
        rw [← hd, Walk.globals_after]
        change c.globals.procedures = _
        rw [← hk, Walk.globals_after]
        exact hprocedures
      refine ⟨hglobals, hsound', ?_, Names.Acyclic.ends⟩
      rw [← hglobals]
      exact hsound'.length_le

namespace WalkSample

open Sample

/-- `loop { blink(); }` -/
def turn : Stmt := .loop none [at1 (.call ⟨at1 "blink", []⟩)]

def blink : Procedure where
  name := at1 "blink"
  params := []
  body := [at1 turn]
  inline := true

def main : Procedure where
  name := at1 "main"
  params := []
  body := [at1 turn]
  inline := false

def program : Program :=
  { vectors := none, items := [at1 (.procedure blink), at1 (.procedure main)] }

def start : Checked Context :=
  program.bodyContext sampleDevice (.ofFormats [.hex] {}) [at1 (.procedure blink)] main

theorem start_isOk : start.isOk := by decide +kernel

theorem start_does : (start >>= fun c =>
    c.does (·.lower (Scope.expandUpTo c.depth) (.point "a" 1 1) turn)) =
      .error ⟨.point "a" 1 1, .semantic (.recursiveInline "blink")⟩ := by
  with_unfolding_all rfl

end WalkSample

/-- The fault is found in two loops, one of them in an expansion. -/
theorem lowering_restores_context_recursive :
    ∃ c, WalkSample.program.items = [Sample.at1 (.procedure WalkSample.blink)] ++
        [⟨.point "a" 1 1, .procedure WalkSample.main⟩] ∧
      WalkSample.main.inline = false ∧ WalkSample.start = .ok c ∧
      ∃ j, ((c.walk WalkSample.main.body).after j).tasks = [] ∧
        ((c.walk WalkSample.main.body).after j).result =
          .error ⟨.point "a" 1 1, .semantic (.recursiveInline "blink")⟩ ∧
        c.Keeps ((c.walk WalkSample.main.body).after j).context := by
  have hok := WalkSample.start_isOk
  have hdoes := WalkSample.start_does
  cases hstart : WalkSample.start with
  | error e =>
    rw [hstart] at hok
    cases hok
  | ok c =>
    rw [hstart] at hdoes
    have hrestores := lowering_restores_context (p := WalkSample.main) rfl rfl hstart
    obtain ⟨j, hj, hresult, hkeeps⟩ := (hrestores.2 0 c rfl (.point "a" 1 1) WalkSample.turn).1
    exact ⟨c, rfl, rfl, rfl, j, hj, hresult.trans hdoes, hkeeps⟩

end Avr
