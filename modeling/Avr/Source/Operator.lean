namespace Avr

inductive ArithOp
  | add | sub | mul | div | rem | shl | shr | and | or | xor
deriving DecidableEq

inductive RelOp
  | eq | ne | lt | gt | le | ge
deriving DecidableEq

/-- `both` and `either` are the short-circuit connectives. -/
inductive BinaryOp
  | arith (op : ArithOp)
  | both
  | either
  | rel (op : RelOp)
deriving DecidableEq

inductive StepOp
  | inc | dec
deriving DecidableEq

inductive UnaryOp
  | neg | not | bitNot
  | step (op : StepOp)
deriving DecidableEq

/-- Plain assignment, or one that first combines the old value with the new. -/
inductive AssignOp
  | set
  | update (op : ArithOp)
deriving DecidableEq

namespace ArithOp

def all : List ArithOp := [add, sub, mul, div, rem, shl, shr, and, or, xor]

def name : ArithOp → String
  | add => "Add" | sub => "Sub" | mul => "Mul" | div => "Div" | rem => "Rem"
  | shl => "Shl" | shr => "Shr" | and => "And" | or => "Or" | xor => "Xor"

def symbol : ArithOp → String
  | add => "+" | sub => "-" | mul => "*" | div => "/" | rem => "%"
  | shl => "<<" | shr => ">>" | and => "&" | or => "|" | xor => "^"

/-- A quotient exists unless the divisor is zero or the true quotient exceeds the largest word. -/
def divides (a b : Int32) : Bool := b ≠ 0 && !(a = Int32.minValue && b = -1)

def apply (op : ArithOp) (a b : Int32) : Option Int32 :=
  match op with
  | add => some (a + b)
  | sub => some (a - b)
  | mul => some (a * b)
  | div => if divides a b then some (a / b) else none
  | rem => if divides a b then some (a % b) else none
  | shl => some (a <<< b)
  | shr => some (a >>> b)
  | and => some (a &&& b)
  | or => some (a ||| b)
  | xor => some (a ^^^ b)

end ArithOp

namespace RelOp

def all : List RelOp := [eq, ne, lt, gt, le, ge]

def name : RelOp → String
  | eq => "Eq" | ne => "Ne" | lt => "Lt" | gt => "Gt" | le => "Le" | ge => "Ge"

def symbol : RelOp → String
  | eq => "==" | ne => "!=" | lt => "<" | gt => ">" | le => "<=" | ge => ">="

def holds (op : RelOp) (a b : Int32) : Bool :=
  match op with
  | eq => a = b
  | ne => a ≠ b
  | lt => a < b
  | gt => b < a
  | le => a ≤ b
  | ge => b ≤ a

/-- The relation that holds exactly when this one does not. -/
def inverse : RelOp → RelOp
  | eq => ne | ne => eq | lt => ge | ge => lt | gt => le | le => gt

/-- The relation of the exchanged operands. -/
def mirror : RelOp → RelOp
  | lt => gt | gt => lt | le => ge | ge => le | eq => eq | ne => ne

end RelOp

namespace BinaryOp

def all : List BinaryOp := ArithOp.all.map arith ++ [both, either] ++ RelOp.all.map rel

def name : BinaryOp → String
  | arith op => op.name
  | both => "LogicalAnd"
  | either => "LogicalOr"
  | rel op => op.name

def symbol : BinaryOp → String
  | arith op => op.symbol
  | both => "&&"
  | either => "||"
  | rel op => op.symbol

def truth (b : Bool) : Int32 := if b then 1 else 0

def apply (op : BinaryOp) (a b : Int32) : Option Int32 :=
  match op with
  | arith op => op.apply a b
  | both => some (truth (a ≠ 0 && b ≠ 0))
  | either => some (truth (a ≠ 0 || b ≠ 0))
  | rel op => some (truth (op.holds a b))

def isRelational : BinaryOp → Bool
  | rel _ => true
  | _ => false

def inverse : BinaryOp → Option BinaryOp
  | rel op => some (rel op.inverse)
  | _ => none

/-- The assignment that applies this operator to its target. -/
def update : BinaryOp → Option AssignOp
  | arith op => some (.update op)
  | _ => none

end BinaryOp

namespace StepOp

def all : List StepOp := [inc, dec]

def name : StepOp → String
  | inc => "Inc" | dec => "Dec"

def symbol : StepOp → String
  | inc => "++" | dec => "--"

end StepOp

namespace UnaryOp

def all : List UnaryOp := [neg, not, bitNot] ++ StepOp.all.map step

def name : UnaryOp → String
  | neg => "Neg" | not => "Not" | bitNot => "BitNot"
  | step op => op.name

def symbol : UnaryOp → String
  | neg => "-" | not => "!" | bitNot => "~"
  | step op => op.symbol

end UnaryOp

namespace AssignOp

def all : List AssignOp := set :: ArithOp.all.map update

def name : AssignOp → String
  | set => "Set"
  | update op => op.name

def symbol : AssignOp → String
  | set => "="
  | update op => op.symbol ++ "="

end AssignOp

end Avr
