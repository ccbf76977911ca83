import Avr.Lowering.Scope

namespace Avr.Scope

/-- A jump target written as a call moves the arguments first. -/
def callTarget (s : Scope) (l : Location) (call : Call Expr) : Lowering Operand := do
  let name := call.name.value
  let p ← Trace.get l (.unknownFunction name) (s.globals.callable? name)
  s.bindArguments p call l
  return .label (.plain name)

def pointerBase (s : Scope) (e : Located Expr) : Lowering Base := do
  let v ← s.resolve e
  Trace.get e.location .invalidArgument v.base?

def isPointerSlot (slot : Option Slot) : Bool := slot = some .pointer || slot = some .programPointer

/-- An undeclared name as an operand. -/
def symbolOperand (l : Location) (slot : Option Slot) (label : LabelRef) : Trace Operand :=
  match slot with
  | none | some .rel7 | some .rel12 | some .abs22 | some .imm8 => pure (.label label)
  | some .bit => .fail l (.unknownBit label.name)
  | _ => .fail l (.unknownIdentifier label.name)

def pairOperand (slot : Option Slot) (p : Pair) : Operand :=
  match p.base? with
  | none => .pair p
  | some b =>
    if isPointerSlot slot then .pointer (.plain b)
    else if slot = some .displaced then .displaced b 0
    else .pair p

def valueOperand (l : Location) (slot : Option Slot) (v : Value) : Trace Operand :=
  match v with
  | .const k => pure (.number k)
  | .reg r => pure (.reg r)
  | .group rs => do return pairOperand slot (← Trace.get l .registerExpected (Pair.ofList? rs))
  | .io p => pure (.number (Int32.ofNat p.address))
  | .var v => pure (.number (Int32.ofNat v.address))
  | .cell a => pure (.number (Int32.ofNat a))
  | .external v => pure (.external (v.reference 0))
  | .label label => pure (.label label)
  | .symbol label => symbolOperand l slot label
  | .binary op a b =>
    match slot, op with
    | some .displaced, .arith .add => do
      let (base, q) ← Trace.get l .invalidArgument (Value.baseAndOffset? a b)
      return .displaced base q
    | _, _ =>
      match v.externalAddress? with
      | some e => pure (.external e)
      | none => do return .address (← Trace.get l .invalidArgument v.address?)
  | v => .fail l v.misuse

/-- The register to look into for the bits of the next operand. -/
def ioRegister? (s : Scope) : Value → Option IoRegister → Option IoRegister
  | .io p, _ => s.globals.device.register? p.name
  | _, last => last

/-- An operand that is a value, with the I/O register that it leaves for the next one. -/
def plainOperand (s : Scope) (slot : Option Slot) (last : Option IoRegister) (e : Located Expr) :
    Lowering (Option IoRegister × Operand) := do
  let v ← s.resolve e
  return (s.ioRegister? v last, ← valueOperand e.location slot v)

def operand (s : Scope) (slot : Option Slot) (last : Option IoRegister) (e : Located Expr) :
    Lowering (Option IoRegister × Operand) :=
  match e.value with
  | .call call =>
    if slot.any Slot.isJump then do return (last, ← s.callTarget e.location call)
    else s.plainOperand slot last e
  | .suffix .inc inner =>
    if isPointerSlot slot then do
      return (last, .pointer (.postIncrement (← s.pointerBase inner)))
    else s.plainOperand slot last e
  | .unary (.step .dec) inner =>
    if slot = some .pointer then do
      return (last, .pointer (.preDecrement (← s.pointerBase inner)))
    else s.plainOperand slot last e
  | .ident name =>
    match if slot = some .bit then s.globals.namedBit? last name else none with
    | some (last, bit) => return (last, .number (Int32.ofNat bit))
    | none => s.plainOperand slot last e
  | _ => s.plainOperand slot last e

def operands (s : Scope) (slots : List Slot) (last : Option IoRegister) :
    List (Located Expr) → Lowering (List Operand)
  | [] => return []
  | e :: rest => do
    let (last, o) ← s.operand slots.head? last e
    return o :: (← s.operands slots.tail last rest)

/-- Emits the instruction and gives its size. -/
def asm (s : Scope) (i : AsmInstruction) : Lowering Nat := do
  let name := i.mnemonic.value
  let l := i.mnemonic.location
  let m ← Trace.get l (.unknownMnemonic name) (Mnemonic.ofName? name)
  let slots := (m.formOfLength? i.operands.length).getD []
  let operands ← s.operands slots none i.operands
  s.place l (Selection.emit m operands)
  return m.size

end Avr.Scope
