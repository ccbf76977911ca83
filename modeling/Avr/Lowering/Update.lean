import Avr.Lowering.Address
import Avr.Lowering.Code
import Avr.Lowering.Fold

namespace Avr.Selection

open Value (offset)

def addRegConst (r : Reg) (k : Int32) : Selection :=
  if k = 0 then warn .zeroArgument
  else if k = 1 then onReg .inc r
  else if k = -1 then onReg .dec r
  else if -255 ≤ k ∧ k ≤ 255 then onNumber .subi r (-k &&& 0xff)
  else fail .valueTooBig

/-- Adds to a register, or subtracts from it. A sum is added term by term. -/
def addReg (r : Reg) (subtract : Bool) (value : Value) : Selection :=
  match value.simplify with
  | .const k => addRegConst r (offset subtract k)
  | .reg s => onRegs (if subtract then .sub else .add) r s
  | .binary .. =>
    match value.foldedTerms? with
    | some ts => sequence (ts.map fun ⟨(minus, t), _⟩ => addReg r (subtract ^^ minus) t)
    | none => fail .unsupported
  | v => fail v.misuse
termination_by value.weight

def shiftReg (m : Mnemonic) (r : Reg) : Value → Selection
  | .const k =>
    if k = 0 then warn .zeroArgument
    else if 1 ≤ k ∧ k ≤ 7 then sequence (List.replicate k.toNatClampNeg (onReg m r))
    else fail .invalidArgument
  | _ => fail .invalidArgument

def updateReg (r : Reg) (op : ArithOp) (value : Value) : Selection :=
  match op, value.simplify with
  | .add, _ => addReg r false value
  | .sub, _ => addReg r true value
  | .and, .const k => onNumber .andi r (k &&& 0xff)
  | .or, .const k => onNumber .ori r (k &&& 0xff)
  | .and, .reg s => onRegs .and r s
  | .or, .reg s => onRegs .or r s
  | .xor, .reg s => onRegs .eor r s
  | .shl, v => shiftReg .lsl r v
  | .shr, v => shiftReg .lsr r v
  | _, v => fail v.misuse

/-- Subtracts a number from a group, given its bytes from the low one up. -/
def subtractBytes (rs : List Reg) (byte : Nat → Operand) : Selection :=
  sequence ((lowFirst rs).map fun (n, r) =>
    emit (if n = 0 then .subi else .sbci) [.reg r, byte n])

def addGroupConst (rs : List Reg) (k : Int32) : Selection :=
  if k = 0 then warn .zeroArgument
  else
    match (Pair.ofList? rs).filter Pair.isWord with
    | some p =>
      if 1 ≤ k ∧ k ≤ 63 then emit .adiw [.pair p, .number k]
      else if -63 ≤ k ∧ k ≤ -1 then emit .sbiw [.pair p, .number (-k)]
      else subtractBytes rs fun n => .number (constByte (-k) n)
    | none => subtractBytes rs fun n => .number (constByte (-k) n)

/-- Adds an address that may be known only once labels are placed. -/
def addGroupAddress (rs : List Reg) (subtract : Bool) (e : AddrExpr) : Selection :=
  match e.constant? with
  | some k => addGroupConst rs (offset subtract k)
  | none =>
    let amount := if subtract then e else .negate e
    subtractBytes rs fun n => .address (amount.byte n)

def addGroupExternal (rs : List Reg) (subtract : Bool) (e : ExternalRef) : Selection :=
  let amount := if subtract then e else e.negate
  match rs with
  | [high, low] =>
    sequence [emit .subi [.reg low, .external (amount.cut .low)],
      emit .sbci [.reg high, .external (amount.cut .high)]]
  | _ => fail .differentSizes

/-- Carries go from the low byte up. -/
def addGroups (subtract : Bool) (rs ss : List Reg) : Selection :=
  if ss.length ≠ rs.length then fail .differentSizes
  else
    sequence (((lowFirst rs).zip ss.reverse).map fun ((n, r), s) =>
      match subtract, n with
      | false, 0 => onRegs .add r s
      | false, _ => onRegs .adc r s
      | true, 0 => onRegs .sub r s
      | true, _ => onRegs .sbc r s)

def addGroup (rs : List Reg) (subtract : Bool) (value : Value) : Selection :=
  match value.simplify with
  | .const k => addGroupConst rs (offset subtract k)
  | .group ss => addGroups subtract rs ss
  | .reg _ => fail .differentSizes
  | v =>
    match v.address?, v.externalAddress? with
    | some e, _ => addGroupAddress rs subtract e
    | none, some e => addGroupExternal rs subtract e
    | none, none =>
      if v.isBinary then
        match value.foldedTerms? with
        | some ts => sequence (ts.map fun ⟨(minus, t), _⟩ => addGroup rs (subtract ^^ minus) t)
        | none => fail .unsupported
      else fail v.misuse
termination_by value.weight

/-- Bytes on which the constant has no effect are left out. -/
def maskGroup (m : Mnemonic) (neutral : Int32) (rs : List Reg) (k : Int32) : Selection :=
  sequence (((lowFirst rs).filter fun (n, _) => constByte k n ≠ neutral).map fun (n, r) =>
    onNumber m r (constByte k n))

def pairwise (m : Mnemonic) (rs ss : List Reg) : Selection :=
  if ss.length ≠ rs.length then fail .differentSizes
  else sequence ((rs.zip ss).map fun (r, s) => onRegs m r s)

/-- Shifts by one bit, through the registers in the order of the shift. -/
def shiftOnce (first carry : Mnemonic) : List Reg → List Selection
  | [] => []
  | r :: rs => onReg first r :: rs.map (onReg carry)

def shiftGroup (left : Bool) (rs : List Reg) : Value → Selection
  | .const k =>
    if k = 0 then warn .zeroArgument
    else if k < 0 ∨ 8 * rs.length ≤ k.toNatClampNeg then fail .invalidArgument
    else
      let once := if left then shiftOnce .lsl .rol rs.reverse else shiftOnce .lsr .ror rs
      sequence (List.replicate k.toNatClampNeg once).flatten
  | _ => fail .invalidArgument

def updateGroup (rs : List Reg) (op : ArithOp) (value : Value) : Selection :=
  match op, value.simplify with
  | .add, _ => addGroup rs false value
  | .sub, _ => addGroup rs true value
  | .and, .const k => maskGroup .andi 0xff rs k
  | .or, .const k => maskGroup .ori 0 rs k
  | .and, .group ss => pairwise .and rs ss
  | .or, .group ss => pairwise .or rs ss
  | .xor, .group ss => pairwise .eor rs ss
  | .shl, v => shiftGroup true rs v
  | .shr, v => shiftGroup false rs v
  | _, v => fail v.misuse

def update (op : ArithOp) (target value : Value) : Selection :=
  match target.unmarked with
  | .reg r => updateReg r op value
  | .group rs => updateGroup rs op value
  | v => fail v.misuse

/-- Counts the target up or down by one. -/
def step (op : StepOp) (target : Value) : Selection :=
  update (match op with | .inc => .add | .dec => .sub) target (.const 1)

end Avr.Selection
