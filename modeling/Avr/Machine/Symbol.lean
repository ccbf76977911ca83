import Avr.Source.Operator

namespace Avr

/-- A label named inside a procedure is looked for there first, under its inner name. -/
structure LabelRef where
  inner : Option String
  name : String
deriving DecidableEq

namespace LabelRef

def plain (name : String) : LabelRef := ⟨none, name⟩

def candidates (l : LabelRef) : List String := l.inner.toList ++ [l.name]

def find? (labels : List (String × Nat)) (l : LabelRef) : Option Nat :=
  l.candidates.findSome? fun name => labels.lookup name

end LabelRef

/-- An expression over label addresses, evaluated once all labels are placed. -/
inductive AddrExpr
  | const (k : Int32)
  | address (l : LabelRef)
  | binary (op : BinaryOp) (left right : AddrExpr)
  | negate (e : AddrExpr)
deriving DecidableEq

inductive AddrError
  | unplaced (l : LabelRef)
  | divisionByZero
deriving DecidableEq

namespace AddrExpr

def isConst : AddrExpr → Bool
  | const _ => true
  | _ => false

def low (e : AddrExpr) : AddrExpr := binary (.arith .and) e (const 0xff)

/-- Byte `n` of the value, byte 0 being the least significant. -/
def byte (e : AddrExpr) (n : Nat) : AddrExpr :=
  if n = 0 then e.low else (binary (.arith .shr) e (const (Int32.ofNat (8 * n)))).low

def high (e : AddrExpr) : AddrExpr := e.byte 1

def eval (place : LabelRef → Option Nat) : AddrExpr → Except AddrError Int32
  | const k => .ok k
  | address l =>
    match place l with
    | some a => .ok (Int32.ofNat a)
    | none => .error (.unplaced l)
  | negate e => do return -(← e.eval place)
  | binary op left right => do
    let a ← left.eval place
    let b ← right.eval place
    match op.apply a b with
    | some k => .ok k
    | none => .error .divisionByZero

def text : AddrExpr → String
  | const k => toString k.toInt
  | address l => l.name
  | negate e => "-(" ++ e.text ++ ")"
  | binary op left right => "(" ++ left.text ++ " " ++ op.symbol ++ " " ++ right.text ++ ")"

end AddrExpr

inductive BytePart
  | low | high
deriving DecidableEq

/-- A symbol of another unit, displaced, perhaps negated, and perhaps cut to one byte. -/
structure ExternalRef where
  symbol : String
  offset : Int32
  part : Option BytePart := none
  negated : Bool := false
deriving DecidableEq

namespace ExternalRef

def cut (p : BytePart) (r : ExternalRef) : ExternalRef := { r with part := some p }

def negate (r : ExternalRef) : ExternalRef := { r with negated := !r.negated }

def displaced (r : ExternalRef) : String :=
  if r.offset = 0 then r.symbol
  else if 0 < r.offset then r.symbol ++ "+" ++ toString r.offset.toInt
  else r.symbol ++ toString r.offset.toInt

def text (r : ExternalRef) : String :=
  let s := if r.negated then "-(" ++ r.displaced ++ ")" else r.displaced
  match r.part with
  | none => s
  | some .low => "lo8(" ++ s ++ ")"
  | some .high => "hi8(" ++ s ++ ")"

end ExternalRef

end Avr
