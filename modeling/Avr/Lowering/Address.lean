import Avr.Lowering.Value

namespace Avr.Value

/-- The value as an expression over label addresses. -/
def address? : Value → Option AddrExpr
  | const k => some (.const k)
  | label l | symbol l => some (.address l)
  | var v => if v.isArray then some (.const (Int32.ofNat v.address)) else none
  | binary op a b =>
    if op.isRelational then none else do return .binary op (← a.address?) (← b.address?)
  | unary .neg v => do return .negate (← v.address?)
  | _ => none

def externalPointer? : Value → Option ExternalRef
  | external v => if v.type = .ptr then some (v.reference 0) else none
  | _ => none

/-- A pointer of another unit, displaced by a constant. -/
def externalAddress? : Value → Option ExternalRef
  | binary (.arith .add) (const k) v | binary (.arith .add) v (const k) => do
    let r ← v.externalPointer?
    return { r with offset := r.offset + k }
  | binary (.arith .sub) v (const k) => do
    let r ← v.externalPointer?
    return { r with offset := r.offset - k }
  | binary .. => none
  | v => v.externalPointer?

end Avr.Value

namespace Avr.AddrExpr

/-- The value of an expression that needs no label. -/
def constant? (e : AddrExpr) : Option Int32 := (e.eval fun _ => none).toOption

end Avr.AddrExpr
