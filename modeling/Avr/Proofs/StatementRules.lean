import Avr.Proofs.LabelNames
import Avr.Proofs.StatelessCode

namespace Avr

open Trace

/-- What a label can come from in a body. -/
inductive Occurrence
  | globalLabel (name : String)
  | innerLabel (name : String)
  | construct (c : Construct) (line : Nat)
  | call (name : String)

namespace Occurrence

def global? : Occurrence → Option String
  | globalLabel name => some name
  | _ => none

def inner? : Occurrence → Option String
  | innerLabel name => some name
  | _ => none

def construct? : Occurrence → Option (Construct × Nat)
  | construct c line => some (c, line)
  | _ => none

/-- The label as it is named at a stem. -/
def mark? (s : Stem) : Occurrence → Option Mark
  | globalLabel name => some (.global name)
  | innerLabel name => some (.inner s name)
  | construct .. | call _ => none

end Occurrence

mutual

/-- All labels, constructs and calls of a statement, in the order of the source. -/
def Stmt.occurrences (l : Location) (st : Stmt) : List Occurrence :=
  match st with
  | .expr (.call call) => [.call call.name.value]
  | .call call => [.call call.name.value]
  | .label name global => [if global then .globalLabel name else .innerLabel name]
  | .branch _ ⟨yl, yes⟩ no =>
    .construct .branch l.start.line :: (yes.occurrences yl ++ optionOccurrences no)
  | .loop _ body => .construct .loop l.start.line :: listOccurrences body
  | .doWhile body _ => .construct .doWhile l.start.line :: listOccurrences body
  | .block body | .saveRegs _ body => listOccurrences body
  | _ => []
termination_by structural st

def optionOccurrences (st : Option (Located Stmt)) : List Occurrence :=
  match st with
  | none => []
  | some ⟨l, st⟩ => st.occurrences l
termination_by structural st

def listOccurrences (body : List (Located Stmt)) : List Occurrence :=
  match body with
  | [] => []
  | ⟨l, st⟩ :: rest => st.occurrences l ++ listOccurrences rest
termination_by structural body

end

def Procedure.occurrences (p : Procedure) : List Occurrence := listOccurrences p.body

namespace Scope

variable {sc : Scope} {ps : List Procedure} {s : Stem} {active : List String}

theorem generated_text (hs : sc.stem = s.text) (kind : Kind) (l : Location) :
    sc.generated kind.text l = (Mark.construct s kind l.start.line []).text := by
  rw [Mark.text_construct, generated, hs]

/-- The scope of a body that is lowered at this stem, inside these expansions. -/
structure Stands (sc : Scope) (ps : List Procedure) (s : Stem) (active : List String) : Prop where
  procedures : sc.globals.procedures = ps
  stem : sc.stem = s.text
  active : sc.expansions.map (·.procedure.name.value) = active

theorem Stands.inLoop (hs : sc.Stands ps s active) (loop : Option LoopLabels) :
    Stands { sc with loop } ps s active :=
  ⟨hs.procedures, hs.stem, hs.active⟩

theorem Stands.expanded (hs : sc.Stands ps s active) (q : Procedure) (n : Nat)
    (outer : Aliases) :
    Stands { sc with expansions := ⟨q, "_inl" ++ toString n⟩ :: sc.expansions, outer } ps
      (s.expand n) (q.name.value :: active) where
  procedures := hs.procedures
  stem := by
    rw [Stem.text_expand, ← hs.stem]
    simp [Scope.stem, Stem.suffix, expansionMark, String.append_assoc]
  active := by simp [hs.active]

/-- A call is expanded if it names an inline procedure that is not being expanded. -/
theorem inlineProcedure_ok {l : Location} {name : String} {q : Procedure}
    (h : (sc.inlineProcedure l name).outcome = .ok q) :
    sc.globals.procedure? name = some q ∧ q.inline ∧
      name ∉ sc.expansions.map (·.procedure.name.value) := by
  unfold Scope.inlineProcedure at h
  split at h
  · next r hr =>
    split at h
    · cases h
    · next hinline =>
      split at h
      · cases h
      · next hactive =>
        cases h
        exact ⟨hr, by simpa using hinline, by simpa using hactive⟩
  · split at h <;> cases h

theorem Stands.inlineProcedure (hs : sc.Stands ps s active) {l : Location} {name : String}
    {q : Procedure} (h : (sc.inlineProcedure l name).outcome = .ok q) :
    ps.find? (·.name.value = name) = some q ∧ q.inline ∧ q.name.value = name ∧ name ∉ active := by
  obtain ⟨hq, hinline, hactive⟩ := inlineProcedure_ok h
  rw [Globals.procedure?, hs.procedures] at hq
  rw [hs.active] at hactive
  exact ⟨hq, hinline, by simpa using List.find?_some hq, hactive⟩

end Scope

/-- What a property of code at a stem needs in order to hold of all statements there. The labels of
a construct are known by their kinds and by its line. -/
structure StatementRules (s : Stem)
    (Holds : Nat → List Kind → List Occurrence → {α : Type} → Lowering α → Prop) : Prop where
  plain : ∀ {α : Type} {line : Nat} {code : Lowering α}, code.Stateless Emission.IsCode →
    Holds line [] [] code
  use : ∀ {line : Nat} (sc : Scope) (a : Alias), Holds line [] [] (sc.use a)
  bind : ∀ {α β : Type} {line : Nat} {kinds kinds' : List Kind} {os os' : List Occurrence}
    {code : Lowering α} {f : α → Lowering β}, Holds line kinds os code →
    (∀ a, Holds line kinds' os' (f a)) → Holds line (kinds ++ kinds') (os ++ os') (code >>= f)
  limited : ∀ {line : Nat} {kinds : List Kind} {os : List Occurrence} {body : Lowering Unit}
    (maxInstructions maxBytes : Nat) (l : Location), Holds line kinds os body →
    Holds line kinds os (Lowering.limited maxInstructions maxBytes l body)
  label : ∀ {sc : Scope} {line : Nat}, sc.stem = s.text → ∀ (l : Location) (name : String)
    (global : Bool), Holds line [] [if global then .globalLabel name else .innerLabel name]
      (liftM (define l (if global then name else sc.stem ++ "@" ++ name)) : Lowering Unit)
  generated : ∀ {sc : Scope}, sc.stem = s.text → ∀ (l : Location) (kind : Kind),
    Holds l.start.line [kind] [] (liftM (define l (sc.generated kind.text l)) : Lowering Unit)
  gotoIf : ∀ {sc : Scope}, sc.stem = s.text → ∀ (l : Location) (kind : Kind) (truth : Bool)
    (v : Value) (target : LabelRef), Holds l.start.line [kind] []
      (sc.gotoIf l truth v target (sc.generated kind.text l))
  /-- A construct has one label of each kind, and accounts for all of them. -/
  construct : ∀ {line : Nat} {kinds : List Kind} {os os' : List Occurrence} {c : Construct}
    {code : Lowering Unit}, Holds line kinds os code → kinds.Nodup →
    (∀ kind ∈ kinds, kind.construct = c) → os.Sublist os' → ∀ n : Nat,
    Holds n [] (.construct c line :: os') code

/-- Every call that stands here has the property. -/
def CallsHold (Holds : Nat → List Kind → List Occurrence → {α : Type} → Lowering α → Prop)
    (ps : List Procedure) (s : Stem) (active : List String)
    (f : Location → Procedure → Scope → Lowering Unit) : Prop :=
  ∀ sc l call line, Scope.Stands sc ps s active →
    Holds line [] [.call call.name.value] (sc.inlineCall f l call)

namespace StatementRules

variable {s : Stem}
  {Holds : Nat → List Kind → List Occurrence → {α : Type} → Lowering α → Prop}
  {ps : List Procedure} {active : List String}
  {f : Location → Procedure → Scope → Lowering Unit} {sc : Scope}

theorem plain_bind (R : StatementRules s Holds) {line : Nat} {kinds : List Kind}
    {os : List Occurrence} {code : Lowering α} {g : α → Lowering β}
    (h : code.Stateless Emission.IsCode) (hg : ∀ a, Holds line kinds os (g a)) :
    Holds line kinds os (code >>= g) :=
  R.bind (R.plain h) hg

theorem expression (R : StatementRules s Holds) {line : Nat}
    (hcalls : ∀ l call, Holds line [] [.call call.name.value] (sc.inlineCall f l call))
    (l : Location) (e : Expr) :
    Holds line [] ((Stmt.expr e).occurrences l) (sc.expression f l e) := by
  cases e with
  | call call => exact hcalls l call
  | _ => exact R.plain (sc.stateless_expression (fun _ => trivial) (by simp))

theorem goto (R : StatementRules s Holds) {line : Nat} (sc : Scope) (l : Location)
    (target : LabelRef) : Holds line [] [] (sc.goto l target) :=
  R.plain (sc.stateless_goto (fun _ => trivial) l target)

theorem place (R : StatementRules s Holds) {line : Nat} (sc : Scope) (l : Location)
    {code : Selection} (h : code.SparesLabels) : Holds line [] [] (sc.place l code) :=
  R.plain (sc.stateless_place (fun _ => trivial) l h)

theorem branch (R : StatementRules s Holds) (hs : sc.stem = s.text) {l yl : Location}
    {condition : Located Expr} {yes : Stmt} {no : Option (Located Stmt)}
    (hyes : Holds l.start.line [] (yes.occurrences yl) (sc.lower f yl yes))
    (hno : Holds l.start.line [] (optionOccurrences no) (sc.lowerOption f no)) (line : Nat) :
    Holds line [] ((Stmt.branch condition ⟨yl, yes⟩ no).occurrences l)
      (sc.lower f l (.branch condition ⟨yl, yes⟩ no)) := by
  have htest (truth : Bool) (c : Value) (target : LabelRef) :=
    R.gotoIf hs l .branch truth c target
  have hend := R.generated hs l .branchEnd
  simp only [Scope.lower, Stmt.occurrences]
  refine R.plain_bind (by simp) fun c => ?_
  split
  · next target ht =>
    refine R.plain_bind (sc.stateless_jump? ht) fun r => ?_
    have hcode := R.bind (htest true c r) fun _ => hno
    exact R.construct hcode (by decide) (by decide) (List.sublist_append_right _ _) line
  · split
    · split
      · refine R.bind (R.place sc l (by simp)) fun _ => ?_
        have hcode := R.limited 1 2 yl hyes
        exact R.construct hcode (by decide) (by decide) (List.sublist_append_left _ _) line
      · have hcode := R.bind (htest false c (.plain (sc.generated "if_end" l))) fun _ =>
          R.bind hyes fun _ => hend
        exact R.construct hcode (by decide) (by decide) (by simp) line
    · split
      · have hcode := R.bind (htest true c (.plain (sc.generated "if_end" l))) fun _ =>
          R.bind hno fun _ => hend
        exact R.construct hcode (by decide) (by decide) (by simp) line
      · have hcode := R.bind (htest false c (.plain (sc.generated "if_else" l))) fun _ =>
          R.bind hyes fun _ => R.bind (R.goto sc l (.plain (sc.generated "if_end" l))) fun _ =>
          R.bind (R.generated hs l .branchElse) fun _ => R.bind hno fun _ => hend
        exact R.construct hcode (by decide) (by decide) (by simp) line

/-- A loop, whatever it is that decides whether it goes round again. -/
theorem loop (R : StatementRules s Holds) (hs : sc.stem = s.text) {l : Location}
    {condition : Option (Located Expr)} {body : List (Located Stmt)}
    (hbody : ∀ labels, Holds l.start.line [] (listOccurrences body)
      ({ sc with loop := some labels }.lowerAll f body)) (line : Nat) :
    Holds line [] ((Stmt.loop condition body).occurrences l)
      (sc.lower f l (.loop condition body)) := by
  cases condition with
  | none =>
    simp only [Scope.lower, Stmt.occurrences]
    have hcode := R.bind (R.generated hs l .loop) fun _ =>
      R.bind (hbody ⟨sc.generated "loop" l, sc.generated "loopEnd" l⟩) fun _ =>
      R.bind (R.goto sc l (.plain (sc.generated "loop" l))) fun _ => R.generated hs l .loopEnd
    exact R.construct hcode (by decide) (by decide) (by simp) line
  | some condition =>
    simp only [Scope.lower, Stmt.occurrences]
    refine R.plain_bind (sc.stateless_counter (fun _ => trivial) condition) fun counter => ?_
    have hupdate : Holds l.start.line [] []
        (sc.place l (counter.update (.plain (sc.generated "loop" l)))) :=
      R.place sc l (counter.sparesLabels_update _)
    have hend := R.bind hupdate fun _ => R.generated hs l .loopEnd
    split
    · have hcode := R.bind (R.generated hs l .loop) fun _ =>
        R.bind (hbody ⟨sc.generated "loopNext" l, sc.generated "loopEnd" l⟩) fun _ =>
        R.bind (R.generated hs l .loopNext) fun _ => hend
      exact R.construct hcode (by decide) (by decide) (by simp) line
    · have hcode := R.bind (R.generated hs l .loop) fun _ =>
        R.bind (hbody ⟨sc.generated "loop" l, sc.generated "loopEnd" l⟩) fun _ => hend
      exact R.construct hcode (by decide) (by decide) (by simp) line

theorem doWhile (R : StatementRules s Holds) (hs : sc.stem = s.text) {l : Location}
    {condition : Located Expr} {body : List (Located Stmt)}
    (hbody : ∀ labels, Holds l.start.line [] (listOccurrences body)
      ({ sc with loop := some labels }.lowerAll f body)) (line : Nat) :
    Holds line [] ((Stmt.doWhile body condition).occurrences l)
      (sc.lower f l (.doWhile body condition)) := by
  simp only [Scope.lower, Stmt.occurrences]
  have hend := R.plain_bind (sc.stateless_resolve condition) fun c =>
    R.bind (R.gotoIf hs l .test true c (.plain (sc.generated "do" l))) fun _ =>
    R.generated hs l .doEnd
  split
  · have hcode := R.bind (R.generated hs l .doWhile) fun _ =>
      R.bind (hbody ⟨sc.generated "doNext" l, sc.generated "doEnd" l⟩) fun _ =>
      R.bind (R.generated hs l .doNext) fun _ => hend
    exact R.construct hcode (by decide) (by decide) (by simp) line
  · have hcode := R.bind (R.generated hs l .doWhile) fun _ =>
      R.bind (hbody ⟨sc.generated "do" l, sc.generated "doEnd" l⟩) fun _ => hend
    exact R.construct hcode (by decide) (by decide) (by simp) line

/-- Registers are saved in front of the body and taken back behind it. -/
theorem saveRegs (R : StatementRules s Holds) {l : Location} {registers : List (Located Expr)}
    {body : List (Located Stmt)} {line : Nat}
    (hbody : Holds line [] (listOccurrences body) (sc.lowerAll f body)) :
    Holds line [] ((Stmt.saveRegs registers body).occurrences l)
      (sc.lower f l (.saveRegs registers body)) := by
  have hmoves (m : Mnemonic) (rs : List Reg) :
      (rs.forM fun r => sc.place l (Selection.onReg m r)).Stateless Emission.IsCode :=
    Lowering.stateless_forM fun r _ => sc.stateless_place (fun _ => trivial) l (by simp)
  simp only [Scope.lower, Stmt.occurrences]
  refine R.plain_bind (Lowering.stateless_mapM fun e _ => by simp) fun rs => ?_
  refine R.plain_bind (hmoves .push _) fun _ => ?_
  rw [← List.append_nil (listOccurrences body)]
  exact R.bind hbody fun _ => R.plain (hmoves .pop _)

mutual

theorem lower (R : StatementRules s Holds) (hcalls : CallsHold Holds ps s active f) {sc : Scope}
    (hs : sc.Stands ps s active) (l : Location) (st : Stmt) (line : Nat) :
    Holds line [] (st.occurrences l) (sc.lower f l st) := by
  match st with
  | .expr e =>
    simp only [Scope.lower]
    exact R.expression (fun l call => hcalls sc l call line hs) l e
  | .call call =>
    simp only [Scope.lower, Stmt.occurrences]
    exact hcalls sc l call line hs
  | .asm i =>
    simp only [Scope.lower, Stmt.occurrences, discard]
    exact R.plain (Lowering.stateless_map _ (sc.stateless_asm (fun _ => trivial) i))
  | .label name global =>
    simp only [Scope.lower, Stmt.occurrences]
    exact R.label hs.stem l name global
  | .goto name =>
    simp only [Scope.lower, Stmt.occurrences]
    exact R.goto sc l _
  | .leave =>
    simp only [Scope.lower, Stmt.occurrences]
    exact R.plain_bind (sc.stateless_loopTarget l _) fun _ => R.goto sc l _
  | .again =>
    simp only [Scope.lower, Stmt.occurrences]
    exact R.plain_bind (sc.stateless_loopTarget l _) fun _ => R.goto sc l _
  | .branch condition ⟨yl, yes⟩ no =>
    have hyes := R.lower hcalls hs yl yes l.start.line
    have hno := R.lowerOption hcalls hs no l.start.line
    exact R.branch hs.stem hyes hno line
  | .loop condition body =>
    have hbody (labels : LoopLabels) :=
      R.lowerAll hcalls (hs.inLoop (some labels)) body l.start.line
    exact R.loop hs.stem hbody line
  | .doWhile body condition =>
    have hbody (labels : LoopLabels) :=
      R.lowerAll hcalls (hs.inLoop (some labels)) body l.start.line
    exact R.doWhile hs.stem hbody line
  | .block body =>
    simp only [Scope.lower, Stmt.occurrences]
    exact R.lowerAll hcalls hs body line
  | .use a =>
    simp only [Scope.lower, Stmt.occurrences]
    exact R.use sc a
  | .saveRegs registers body => exact R.saveRegs (R.lowerAll hcalls hs body line)
  | .data block =>
    simp only [Scope.lower, Stmt.occurrences]
    exact R.plain (sc.stateless_data (fun _ => trivial) l block)
termination_by structural st

theorem lowerOption (R : StatementRules s Holds) (hcalls : CallsHold Holds ps s active f)
    {sc : Scope} (hs : sc.Stands ps s active) (st : Option (Located Stmt)) (line : Nat) :
    Holds line [] (optionOccurrences st) (sc.lowerOption f st) := by
  match st with
  | none =>
    simp only [Scope.lowerOption, optionOccurrences]
    exact R.plain (Lowering.stateless_pure _)
  | some ⟨l, st⟩ =>
    simp only [Scope.lowerOption, optionOccurrences]
    exact R.lower hcalls hs l st line
termination_by structural st

theorem lowerAll (R : StatementRules s Holds) (hcalls : CallsHold Holds ps s active f)
    {sc : Scope} (hs : sc.Stands ps s active) (body : List (Located Stmt)) (line : Nat) :
    Holds line [] (listOccurrences body) (sc.lowerAll f body) := by
  match body with
  | [] =>
    simp only [Scope.lowerAll, listOccurrences]
    exact R.plain (Lowering.stateless_pure _)
  | ⟨l, st⟩ :: rest =>
    have hst := R.lower hcalls hs l st line
    have hrest := R.lowerAll hcalls hs rest line
    simp only [Scope.lowerAll, listOccurrences]
    exact R.bind hst fun _ => hrest
termination_by structural body

end

end StatementRules

end Avr
