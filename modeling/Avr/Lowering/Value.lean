import Avr.Device
import Avr.Machine.Operand
import Avr.Source.DataType
import Avr.Error

namespace Avr

/-- A variable in RAM, or an array of `length` cells. -/
structure Variable where
  name : String
  address : Nat
  type : DataType
  length : Option Nat
deriving DecidableEq

namespace Variable

def size (v : Variable) : Nat := wrap32 (v.type.size * v.length.getD 1)

/-- An array is used by its address, not by its content. -/
def isArray (v : Variable) : Bool := v.length.isSome

end Variable

/-- A variable of another unit, or the cell at an offset from it. -/
structure ExternalVar where
  symbol : String
  type : DataType
  offset : Int32
deriving DecidableEq

namespace ExternalVar

def reference (v : ExternalVar) (k : Int32) : ExternalRef :=
  { symbol := v.symbol, offset := v.offset + k }

end ExternalVar

structure Port where
  name : String
  address : Nat
  size : Nat
deriving DecidableEq

/-- Ways to reach a RAM cell through an index register. -/
inductive Indirect
  | pointer (p : Pointer)
  | displaced (b : Base) (q : Int32)
deriving DecidableEq

namespace Indirect

def base : Indirect → Base
  | pointer p => p.base
  | displaced b _ => b

end Indirect

inductive Value
  | const (k : Int32)
  | reg (r : Reg)
  /-- Registers from the most to the least significant byte. -/
  | group (rs : List Reg)
  | io (p : Port)
  | ioBit (address bit : Nat)
  | statusBit (bit : Nat)
  | regBit (r : Reg) (bit : Fin 8)
  | mem (i : Indirect)
  /-- The byte of program memory at `Z`, which may be stepped afterwards. -/
  | flash (increment : Bool)
  | var (v : Variable)
  /-- The RAM byte at a fixed address. -/
  | cell (address : Nat)
  | external (v : ExternalVar)
  | label (l : LabelRef)
  /-- A name that nothing declares. It may still be a label. -/
  | symbol (l : LabelRef)
  | binary (op : BinaryOp) (left right : Value)
  | unary (op : UnaryOp) (operand : Value)
  | suffix (op : StepOp) (operand : Value)
  | assign (op : AssignOp) (target value : Value)
  /-- Comparisons inside read registers as two's complement. -/
  | signed (v : Value)
deriving DecidableEq

namespace Value

def isBinary : Value → Bool
  | binary .. => true
  | _ => false

def pair? : Value → Option Pair
  | group rs => Pair.ofList? rs
  | _ => none

/-- The index register that the value is. -/
def base? (v : Value) : Option Base := v.pair?.bind Pair.base?

/-- As a target, a value is the same with and without the mark. -/
def unmarked : Value → Value
  | signed v => v.unmarked
  | v => v

/-- Whether the register takes part in the value. -/
def mentions (r : Reg) : Value → Bool
  | reg s | regBit s _ => s = r
  | group rs => rs.contains r
  | mem i => i.base.mentions r
  | binary _ a b | assign _ a b => a.mentions r || b.mentions r
  | unary _ v | suffix _ v | signed v => v.mentions r
  | _ => false

section

variable (r : Reg)

@[simp] theorem mentions_const (k : Int32) : (const k).mentions r = false := rfl

@[simp] theorem mentions_reg (s : Reg) : (reg s).mentions r = decide (s = r) := rfl

@[simp] theorem mentions_group (rs : List Reg) : (group rs).mentions r = rs.contains r := rfl

@[simp] theorem mentions_binary (op : BinaryOp) (a b : Value) :
    (binary op a b).mentions r = (a.mentions r || b.mentions r) := rfl

end

/-- The fault of a value where it has no use. -/
def misuse : Value → SemanticError
  | symbol l => .unknownIdentifier l.name
  | _ => .unsupported

end Value

end Avr
