import Avr.Device
import Avr.Lowering.Code
import Avr.Lowering.Value

namespace Avr.Selection

def jumpTo (m : Mnemonic) (target : LabelRef) : Selection := emit m [.label target]

/-- The branch taken after a comparison. Other relations are turned into these first. -/
def branchOn (op : RelOp) (signed : Bool) : Option Mnemonic :=
  match op, signed with
  | .eq, _ => some .breq
  | .ne, _ => some .brne
  | .lt, true => some .brlt
  | .lt, false => some .brlo
  | .ge, true => some .brge
  | .ge, false => some .brsh
  | .gt, _ | .le, _ => none

/-- After `tst` the sign alone decides. -/
def branchOnSign (op : RelOp) (signed : Bool) : Option Mnemonic :=
  match op with
  | .lt => some .brmi
  | .ge => some .brpl
  | op => branchOn op signed

def branch (m : Option Mnemonic) (target : LabelRef) : Selection :=
  match m with
  | some m => jumpTo m target
  | none => fail .unsupported

/-- `>` and `<=` compare with the next constant. -/
def compareConst (op : RelOp) (r : Reg) (k : Int32) (signed : Bool) (target : LabelRef) :
    Selection :=
  let (op, k) :=
    match op with
    | .gt => (.ge, k + 1)
    | .le => (.lt, k + 1)
    | op => (op, k)
  if k = 0 then sequence [onReg .tst r, branch (branchOnSign op signed) target]
  else sequence [onNumber .cpi r k, branch (branchOn op signed) target]

/-- Compares from the low byte up. -/
def compareBytes (ls rs : List Reg) : Selection :=
  sequence (((lowFirst ls).zip rs.reverse).map fun ((n, l), r) =>
    onRegs (if n = 0 then .cp else .cpc) l r)

/-- `>` and `<=` compare the other way round. Two unequal registers need no branch. -/
def compareRegs (op : RelOp) (ls rs : List Reg) (signed : Bool) (target : LabelRef) : Selection :=
  match op, ls, rs with
  | .ne, [l], [r] => sequence [onRegs .cpse l r, jumpTo .rjmp target]
  | .gt, _, _ => sequence [compareBytes rs ls, branch (branchOn .lt signed) target]
  | .le, _, _ => sequence [compareBytes rs ls, branch (branchOn .ge signed) target]
  | op, _, _ => sequence [compareBytes ls rs, branch (branchOn op signed) target]

def compare (op : RelOp) (left right : Value) (signed : Bool) (target : LabelRef) : Selection :=
  match left, right with
  | .reg r, .const k => compareConst op r k signed target
  | .const k, .reg r => compareConst op.mirror r k signed target
  | .reg l, .reg r => compareRegs op [l] [r] signed target
  | .group ls, .group rs =>
    if ls.length = rs.length then compareRegs op ls rs signed target else fail .differentSizes
  | .reg _, v | .group _, v => fail v.misuse
  | v, _ => fail v.misuse

/-- A skip over the jump. -/
def skipJump (m : Mnemonic) (operand : Operand) (bit : Nat) (target : LabelRef) : Selection :=
  sequence [emit m [operand, .number (Int32.ofNat bit)], jumpTo .rjmp target]

/-- Jumps if the condition has the given truth value. -/
def jumpIf (truth : Bool) (signed : Bool) (target : LabelRef) : Value → Selection
  | .signed v => jumpIf truth true target v
  | .unary .not v => if truth then jumpIf false signed target v else fail .unsupported
  | .binary (.rel op) a b => compare (if truth then op else op.inverse) a b signed target
  | .regBit r bit => skipJump (if truth then .sbrc else .sbrs) (.reg r) bit target
  | .ioBit address bit =>
    if Device.lowIoEnd < address then fail .lowAddressExpected
    else skipJump (if truth then .sbic else .sbis) (.number (Int32.ofNat address)) bit target
  | .statusBit bit =>
    emit (if truth then .brbs else .brbc) [.number (Int32.ofNat bit), .label target]
  | .reg r => sequence [onReg .tst r, jumpTo (if truth then .brne else .breq) target]
  | .const k => if (k ≠ 0) = truth then jumpTo .rjmp target else nothing
  | v => fail v.misuse

end Avr.Selection
