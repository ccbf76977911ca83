import Avr.Lowering.Statement
import Avr.Lowering.Vectors

namespace Avr

/-- How far the items of a program are lowered. -/
structure Build where
  globals : Globals
  /-- Whether a linker will see the program. -/
  links : Bool
  /-- An `org` that waits for its item. -/
  origin : Option (Located Nat) := none
  /-- Offset of the next variable from the start of RAM. -/
  ramUsed : Nat := 0
  counters : Counters := {}

abbrev Building := StateT Build Trace

namespace Build

/-- Names outside procedures. -/
def names (b : Build) : Names := { globals := b.globals, bindings := b.globals.aliases }

/-- Only procedures and variables of programs that are linked can be external. -/
def requireLinker (b : Build) (l : Location) : Trace Unit :=
  Trace.require l .externalsUnavailable b.links

def declareProcedure (p : Procedure) (isExternal : Bool) : Building Unit := do
  let b ← get
  let g := b.globals
  let name := p.name.value
  Trace.require p.name.location (.procedureDefined name) (g.callable? name).isNone
  if isExternal then
    b.requireLinker p.name.location
    Trace.emit (.declare name .external)
    set { b with globals := { g with externalProcedures := g.externalProcedures ++ [p] } }
  else
    set { b with globals := { g with procedures := g.procedures ++ [p] } }

def declareProcedures (items : List (Located Item)) : Building Unit :=
  items.forM fun item =>
    match item.value with
    | .procedure p => declareProcedure p false
    | .externalProcedure p => declareProcedure p true
    | _ => return

/-- The waiting `org`, which waits no longer. -/
def takeOrigin : Building (Option (Located Nat)) := do
  let b ← get
  set { b with origin := none }
  return b.origin

/-- An `org` must not wait here. -/
def rejectOrigin : Building Unit := do
  match ← takeOrigin with
  | some o => Trace.fail o.location (.invalidDirective "org")
  | none => return

/-- Code starts at the waiting `org`. Instructions lie at even addresses. -/
def placeCode : Building Unit := do
  match ← takeOrigin with
  | some o =>
    Trace.require o.location (.wrongOrigin (Int32.ofNat o.value)) (o.value % 2 = 0)
    Trace.emit (.org o.value)
  | none => return

/-- The next variable starts at the waiting `org`. -/
def placeVariable : Building Unit := do
  match ← takeOrigin with
  | some o =>
    let d := (← get).globals.device
    let last ← Trace.get o.location .noRam d.ramEnd?
    Trace.require o.location (.wrongOrigin (Int32.ofNat o.value))
      (d.ramStart ≤ o.value ∧ o.value ≤ last)
    modify fun b => { b with ramUsed := o.value - d.ramStart }
  | none => return

def directive (name : Located String) (args : List (Located Expr)) : Building Unit := do
  match name.value, args with
  | "org", [arg] =>
    rejectOrigin
    let k ← (← get).names.constant arg
    Trace.require arg.location (.wrongOrigin k) (0 ≤ k)
    modify fun b => { b with origin := some ⟨name.location, k.toNatClampNeg⟩ }
  | _, _ => Trace.fail name.location (.invalidDirective name.value)

/-- Runs a part of the lowering that only counts on. -/
def counting (part : Globals → Lowering Unit) : Building Unit := do
  let b ← get
  let (_, st) ← (part b.globals).run { b.counters with }
  set { b with counters := st.toCounters }

def procedure (p : Procedure) : Building Unit := do
  if p.inline then rejectOrigin
  else
    placeCode
    Trace.define p.name.location p.name.value
    Trace.emit (.declare p.name.value .global)
    counting fun g => Scope.lowerBody { globals := g, procedure := some p } p.body

/-- The number of cells of an array. -/
def arrayLength (n : Names) : Option (Located Expr) → Trace (Option Nat)
  | none => pure none
  | some e => do
    let k ← n.constant e
    Trace.require e.location .invalidArgument (0 < k)
    return some k.toNatClampNeg

def declareVariable (decl : VarDecl) : Building Unit := do
  placeVariable
  let b ← get
  let g := b.globals
  let name := decl.name.value
  Trace.require decl.name.location (.variableDefined name) ¬ g.declaresVariable name
  let v : Variable := {
    name, address := wrap32 (g.device.ramStart + b.ramUsed), type := decl.type
    length := ← arrayLength b.names decl.length }
  let used := wrap32 (b.ramUsed + v.size)
  Trace.require decl.name.location (.outOfRam name) (used ≤ g.device.ramSize)
  set { b with ramUsed := used, globals := { g with vars := v :: g.vars } }

def declareExternal (decl : VarDecl) : Building Unit := do
  rejectOrigin
  let b ← get
  let g := b.globals
  let name := decl.name.value
  b.requireLinker decl.name.location
  Trace.require decl.name.location (.variableDefined name) ¬ g.declaresVariable name
  Trace.emit (.declare name .external)
  set { b with globals := { g with externals := ⟨name, decl.type, 0⟩ :: g.externals } }

def declarePin (name target : Located String) : Building Unit := do
  rejectOrigin
  let b ← get
  let g := b.globals
  let p ← Trace.get target.location (.invalidPin target.value)
    ((Pin.ofName? target.value).filter fun p => g.device.hasPort p.port)
  Trace.require name.location (.pinDefined name.value) (g.pin? name.value).isNone
  if g.pins.any (·.2 = p) then Trace.warn target.location (.pinRedefined target.value)
  set { b with globals := { g with pins := (name.value, p) :: g.pins } }

def declareAlias (a : Alias) : Building Unit := do
  rejectOrigin
  let b ← get
  let g := b.globals
  let name := a.name.value
  Trace.require a.name.location (.globalAliasDefined name) (g.aliases.lookup name).isNone
  set { b with globals := { g with aliases := (name, a.target) :: g.aliases } }

def item (item : Located Item) : Building Unit :=
  match item.value with
  | .directive name args => directive name args
  | .procedure p => procedure p
  | .externalProcedure _ => rejectOrigin
  | .var decl => declareVariable decl
  | .externalVar decl => declareExternal decl
  | .pin name target => declarePin name target
  | .use a => declareAlias a
  | .label name => do
    placeCode
    Trace.define item.location name
  | .data block => do
    placeCode
    let row ← (← get).names.dataRow block
    Trace.emit (.data ⟨item.location, row⟩)

def program (p : Program) : Building Unit := do
  declareProcedures p.items
  match p.vectors with
  | some table => counting fun g => g.vectors table
  | none => pure ()
  p.items.forM item
  rejectOrigin

end Build

namespace Program

/-- Lowers a program for a device. `links` says whether a linker will see the result. -/
def lower (p : Program) (device : Device) (links : Bool) : Trace Unit :=
  (Build.program p).run' { globals := { device }, links }

end Program

end Avr
