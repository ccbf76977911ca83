import Avr.Source.Location
import Avr.Source.Operator
import Avr.Source.DataType

namespace Avr

structure Argument (ε : Type) where
  name : Option String
  value : Located ε

structure Call (ε : Type) where
  name : Located String
  args : List (Argument ε)

inductive Expr
  | number (k : Int32)
  | char (c : Char)
  | str (s : String)
  | ident (name : String)
  | register (name : String)
  | group (items : List (Located Expr))
  | binary (op : BinaryOp) (left right : Located Expr)
  | unary (op : UnaryOp) (operand : Located Expr)
  | suffix (op : StepOp) (operand : Located Expr)
  | assign (op : AssignOp) (target value : Located Expr)
  | arrow (base member : Located Expr)
  | index (base index : Located Expr)
  | call (call : Call Expr)
  | signed (inner : Located Expr)

/-- A second name for a register or another expression. -/
structure Alias where
  target : Located Expr
  name : Located String

structure DataBlock where
  width : DataWidth
  items : List (Located Expr)

/-- A machine instruction written out in the source. -/
structure AsmInstruction where
  mnemonic : Located String
  operands : List (Located Expr)

inductive Stmt
  | expr (e : Expr)
  | call (call : Call Expr)
  | asm (instruction : AsmInstruction)
  | label (name : String) (global : Bool)
  | goto (name : String)
  | leave
  | again
  | branch (condition : Located Expr) (yes : Located Stmt) (no : Option (Located Stmt))
  | loop (condition : Option (Located Expr)) (body : List (Located Stmt))
  | doWhile (body : List (Located Stmt)) (condition : Located Expr)
  | block (body : List (Located Stmt))
  | use (a : Alias)
  | saveRegs (registers : List (Located Expr)) (body : List (Located Stmt))
  | data (block : DataBlock)

/-- A formal parameter lives in the register or group that it is bound to. -/
structure Param where
  name : String
  binding : Located Expr

structure Procedure where
  name : Located String
  params : List Param
  body : List (Located Stmt)
  inline : Bool

namespace Procedure

def param? (p : Procedure) (name : String) : Option Param := p.params.find? (·.name = name)

end Procedure

structure VarDecl where
  name : Located String
  type : DataType
  length : Option (Located Expr)

inductive Item
  | procedure (p : Procedure)
  | externalProcedure (p : Procedure)
  | var (decl : VarDecl)
  | externalVar (decl : VarDecl)
  | pin (name pin : Located String)
  | use (a : Alias)
  | directive (name : Located String) (args : List (Located Expr))
  | label (name : String)
  | data (block : DataBlock)

/-- The entry named `default` serves every vector that has no entry of its own. -/
structure VectorEntry where
  name : Located String
  instruction : Located AsmInstruction

structure Program where
  vectors : Option (Located (List VectorEntry))
  items : List (Located Item)

end Avr
