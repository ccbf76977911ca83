import Avr.Lowering.Assign
import Avr.Lowering.Condition
import Avr.Lowering.Resolve

namespace Avr

/-- An inline procedure that is being expanded. -/
structure Expansion where
  procedure : Procedure
  /-- Sets the labels of this expansion apart. -/
  suffix : String

/-- Where `continue` and `break` lead. -/
structure LoopLabels where
  next : String
  stop : String

abbrev Aliases := List (String × Located Expr)

structure Scope where
  globals : Globals
  procedure : Option Procedure := none
  /-- The innermost first. -/
  expansions : List Expansion := []
  /-- Aliases of the enclosing scopes. -/
  outer : Aliases := []
  loop : Option LoopLabels := none
  /-- Goes with every instruction. -/
  comment : Option String := none

/-- Numbers that make generated names unique. -/
structure Counters where
  probes : Nat := 0
  inlined : Nat := 0

structure Progress extends Counters where
  /-- Aliases of the innermost scope. -/
  aliases : Aliases := []

/-- Lowering of a part of a procedure. -/
abbrev Lowering := StateT Progress Trace

namespace Procedure

def bindings (p : Procedure) : Aliases := p.params.map fun q => (q.name, q.binding)

end Procedure

namespace Scope

/-- What the names of inner labels begin with. -/
def stem (s : Scope) : String :=
  (s.procedure.elim "" (·.name.value)) ++ String.join (s.expansions.reverse.map Expansion.suffix)

/-- Parameters of expansions hide aliases, and these hide the parameters of the procedure. -/
def names (s : Scope) (aliases : Aliases) : Names where
  globals := s.globals
  bindings := s.expansions.flatMap (·.procedure.bindings) ++ aliases ++ s.outer ++
    (s.procedure.elim [] Procedure.bindings) ++ s.globals.aliases
  stem := s.procedure.map fun _ => s.stem

/-- The name of a generated label. -/
def generated (s : Scope) (kind : String) (l : Location) : String :=
  s.stem ++ "@" ++ kind ++ "@" ++ toString l.start.line

def resolve (s : Scope) (e : Located Expr) : Lowering Value := do
  (s.names (← get).aliases).resolve e

def constant (s : Scope) (e : Located Expr) : Lowering Int32 := do
  (s.names (← get).aliases).constant e

def labelRef (s : Scope) (name : String) : LabelRef := (s.names []).labelRef name

def place (s : Scope) (l : Location) (code : Selection) : Lowering Unit :=
  Trace.place s.comment l code

def goto (s : Scope) (l : Location) (target : LabelRef) : Lowering Unit :=
  s.place l (Selection.jumpTo .rjmp target)

/-- Jumps if the condition has the given truth value. -/
def gotoIf (s : Scope) (l : Location) (truth : Bool) (v : Value) (target : LabelRef)
    (stem : String) : Lowering Unit :=
  (Test.jumps truth v target stem).forM fun
    | .jump code => s.place l code
    | .label name => Trace.define l name

/-- The target of `break`, or of `continue`. -/
def loopTarget (s : Scope) (l : Location) (continues : Bool) : Lowering LabelRef :=
  match s.loop with
  | some labels => pure (.plain (if continues then labels.next else labels.stop))
  | none => Trace.fail l .outsideLoop

/-- The parameter that an argument goes to. Only a single parameter need not be named. -/
def parameter (p : Procedure) (call : Call Expr) (l : Location) (arg : Argument Expr) :
    Trace Param :=
  match arg.name, p.params with
  | some name, _ => Trace.get l (.unknownArgument name) (p.param? name)
  | none, [param] => pure param
  | none, params => .fail arg.value.location (.argumentCount params.length call.args.length)

/-- Moves the arguments into the registers of the parameters, one after the other. -/
def bindArguments (s : Scope) (p : Procedure) (call : Call Expr) (l : Location) :
    Lowering Unit := do
  Trace.require l (.argumentCount p.params.length call.args.length)
    (call.args.length ≤ p.params.length)
  call.args.forM fun arg => do
    let param ← parameter p call l arg
    let target ← s.resolve param.binding
    let value ← s.resolve arg.value
    s.place arg.value.location (Selection.assign target value)

end Scope

namespace Lowering

/-- Allows the code at most that many instructions and bytes. Bytes are known only once labels are
placed, so they are left to the assembler, between two probes. -/
def limited (maxInstructions maxBytes : Nat) (l : Location) (body : Lowering α) :
    Lowering α := fun st => do
  let start := "?probe" ++ toString st.probes ++ "_start"
  let stop := "?probe" ++ toString st.probes ++ "_end"
  let trace := body { st with probes := st.probes + 1 }
  let found := trace.emitted.countP Emission.isInstruction
  Trace.define l start
  let (a, st) ← trace
  Trace.define l stop
  Trace.emit (.limit ⟨start, stop, maxBytes, l⟩)
  if found ≤ maxInstructions then return (a, st)
  else if maxInstructions = 1 then Trace.throw l (.budget (.singleInstruction found))
  else Trace.throw l (.budget (.tooManyInstructions maxInstructions found))

end Lowering

end Avr
