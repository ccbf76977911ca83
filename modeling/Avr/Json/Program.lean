import Avr.Json.Decode
import Avr.Source.Tree

namespace Avr

open Json

namespace Position

def ofJson? (j : Json) : Option Position := do
  let [line, column] ← j.fields? ["line", "column"] | none
  return ⟨← required word? line, ← required word? column⟩

end Position

namespace Location

def ofJson? (j : Json) : Option Location := do
  let [file, start, stop] ← j.fields? ["file", "start", "end"] | none
  return ⟨← required str? file, ← required Position.ofJson? start, ← required Position.ofJson? stop⟩

end Location

namespace Located

def ofJson? (decode : Json → Option α) (j : Json) : Option (Located α) := do
  let [location, value] ← j.fields? ["location", "value"] | none
  return ⟨← required Location.ofJson? location, ← required decode value⟩

end Located

namespace Call

def argument? (expr : Json → Option ε) (j : Json) : Option (Argument ε) := do
  let [name, value] ← j.fields? ["name", "value"] | none
  return ⟨← optional str? name, ← required (Located.ofJson? expr) value⟩

def ofJson? (expr : Json → Option ε) (j : Json) : Option (Call ε) := do
  let [name, args] ← j.fields? ["name", "args"] | none
  return ⟨← required (Located.ofJson? str?) name, ← defaulted [] (list? (argument? expr)) args⟩

end Call

namespace Expr

def ofJsonAt (form : CaseForm) : Nat → Json → Option Expr
  | 0, _ => none
  | depth + 1, j => do
    let inner := Located.ofJson? (ofJsonAt form depth)
    let two (op : String) (first second : String) (j : Json) := do
      let [op, a, b] ← j.caseFields? form [op, first, second] | none
      return (op, ← required inner a, ← required inner b)
    let (tag, some j) ← j.choice? | none
    match tag with
    | "Number" => return .number (← j.int32?)
    | "Char" => return .char (← j.char?)
    | "Str" => return .str (← j.str?)
    | "Ident" => return .ident (← j.str?)
    | "Register" => return .register (← j.str?)
    | "Group" => return .group (← j.list? inner)
    | "Binary" =>
      let (op, a, b) ← two "op" "left" "right" j
      return .binary (← required (choiceOf? BinaryOp.all BinaryOp.name) op) a b
    | "Assign" =>
      let (op, a, b) ← two "op" "target" "value" j
      return .assign (← required (choiceOf? AssignOp.all AssignOp.name) op) a b
    | "Prefix" =>
      let [op, e] ← j.caseFields? form ["op", "operand"] | none
      return .unary (← required (choiceOf? UnaryOp.all UnaryOp.name) op) (← required inner e)
    | "Suffix" =>
      let [op, e] ← j.caseFields? form ["op", "operand"] | none
      return .suffix (← required (choiceOf? StepOp.all StepOp.name) op) (← required inner e)
    | "Arrow" =>
      let [a, b] ← j.caseFields? form ["base", "member"] | none
      return .arrow (← required inner a) (← required inner b)
    | "Index" =>
      let [a, b] ← j.caseFields? form ["base", "index"] | none
      return .index (← required inner a) (← required inner b)
    | "Call" => return .call (← Call.ofJson? (ofJsonAt form depth) j)
    | "Signed" => return .signed (← inner j)
    | _ => none

def ofJson? (form : CaseForm) (j : Json) : Option Expr := ofJsonAt form (j.depth + 1) j

end Expr

def locatedExpr? (form : CaseForm) : Json → Option (Located Expr) :=
  Located.ofJson? (Expr.ofJson? form)

def locatedName? : Json → Option (Located String) := Located.ofJson? str?

namespace Alias

def ofJson? (form : CaseForm) (j : Json) : Option Alias := do
  let [target, name] ← j.fields? ["target", "name"] | none
  return ⟨← required (locatedExpr? form) target, ← required locatedName? name⟩

end Alias

namespace DataBlock

def ofJson? (form : CaseForm) (j : Json) : Option DataBlock := do
  let [width, items] ← j.fields? ["width", "items"] | none
  return ⟨← required (choiceOf? DataWidth.all DataWidth.name) width,
    ← required (list? (locatedExpr? form)) items⟩

end DataBlock

namespace AsmInstruction

def ofJson? (form : CaseForm) (j : Json) : Option AsmInstruction := do
  let [mnemonic, operands] ← j.fields? ["mnemonic", "operands"] | none
  return ⟨← required locatedName? mnemonic, ← defaulted [] (list? (locatedExpr? form)) operands⟩

end AsmInstruction

namespace Stmt

def ofJsonAt (form : CaseForm) : Nat → Json → Option Stmt
  | 0, _ => none
  | depth + 1, j => do
    let inner := Located.ofJson? (ofJsonAt form depth)
    match ← j.choice? with
    | ("Break", none) | ("Break", some .null) => return .leave
    | ("Continue", none) | ("Continue", some .null) => return .again
    | (_, none) => none
    | (tag, some j) =>
      match tag with
      | "Expr" => return .expr (← Expr.ofJson? form j)
      | "Call" => return .call (← Call.ofJson? (Expr.ofJson? form) j)
      | "Asm" => return .asm (← AsmInstruction.ofJson? form j)
      | "Label" =>
        let [name, global] ← j.caseFields? form ["name", "global"] | none
        return .label (← required str? name) (← defaulted false bool? global)
      | "Goto" => return .goto (← j.str?)
      | "If" =>
        let [condition, yes, no] ← j.caseFields? form ["condition", "then", "otherwise"] | none
        return .branch (← required (locatedExpr? form) condition) (← required inner yes)
          (← optional inner no)
      | "Loop" =>
        let [condition, body] ← j.caseFields? form ["condition", "body"] | none
        return .loop (← optional (locatedExpr? form) condition) (← required (list? inner) body)
      | "DoWhile" =>
        let [body, condition] ← j.caseFields? form ["body", "condition"] | none
        return .doWhile (← required (list? inner) body) (← required (locatedExpr? form) condition)
      | "Block" => return .block (← j.list? inner)
      | "Use" => return .use (← Alias.ofJson? form j)
      | "SaveRegs" =>
        let [registers, body] ← j.caseFields? form ["registers", "body"] | none
        return .saveRegs (← required (list? (locatedExpr? form)) registers)
          (← required (list? inner) body)
      | "Data" => return .data (← DataBlock.ofJson? form j)
      | _ => none

def ofJson? (form : CaseForm) (j : Json) : Option Stmt := ofJsonAt form (j.depth + 1) j

end Stmt

namespace Param

def ofJson? (form : CaseForm) (j : Json) : Option Param := do
  let [name, binding] ← j.fields? ["name", "binding"] | none
  return ⟨← required str? name, ← required (locatedExpr? form) binding⟩

end Param

namespace Procedure

def ofJson? (form : CaseForm) (j : Json) : Option Procedure := do
  let [name, params, body, inline] ← j.fields? ["name", "params", "body", "inline"] | none
  return {
    name := ← required locatedName? name
    params := ← defaulted [] (list? (Param.ofJson? form)) params
    body := ← defaulted [] (list? (Located.ofJson? (Stmt.ofJson? form))) body
    inline := ← defaulted false bool? inline }

end Procedure

namespace VarDecl

def ofJson? (form : CaseForm) (j : Json) : Option VarDecl := do
  let [name, type, length] ← j.fields? ["name", "data_type", "length"] | none
  return {
    name := ← required locatedName? name
    type := ← required (choiceOf? DataType.all DataType.name) type
    length := ← optional (locatedExpr? form) length }

end VarDecl

namespace Item

def ofJson? (form : CaseForm) (j : Json) : Option Item := do
  let (tag, some j) ← j.choice? | none
  match tag with
  | "Procedure" => return .procedure (← Procedure.ofJson? form j)
  | "ExternProcedure" => return .externalProcedure (← Procedure.ofJson? form j)
  | "Var" => return .var (← VarDecl.ofJson? form j)
  | "ExternVar" => return .externalVar (← VarDecl.ofJson? form j)
  | "Pin" =>
    let [name, target] ← j.caseFields? form ["name", "pin"] | none
    return .pin (← required locatedName? name) (← required locatedName? target)
  | "Use" => return .use (← Alias.ofJson? form j)
  | "Directive" =>
    let [name, args] ← j.caseFields? form ["name", "args"] | none
    return .directive (← required locatedName? name) (← required (list? (locatedExpr? form)) args)
  | "Label" => return .label (← j.str?)
  | "Data" => return .data (← DataBlock.ofJson? form j)
  | _ => none

end Item

namespace VectorEntry

def ofJson? (form : CaseForm) (j : Json) : Option VectorEntry := do
  let [name, instruction] ← j.fields? ["name", "instruction"] | none
  return ⟨← required locatedName? name,
    ← required (Located.ofJson? (AsmInstruction.ofJson? form)) instruction⟩

def table? (form : CaseForm) (j : Json) : Option (List VectorEntry) := do
  let [entries] ← j.fields? ["entries"] | none
  required (list? (ofJson? form)) entries

end VectorEntry

namespace Program

def ofJson? (form : CaseForm) (j : Json) : Option Program := do
  let [vectors, items] ← j.fields? ["vectors", "items"] | none
  return ⟨← optional (Located.ofJson? (VectorEntry.table? form)) vectors,
    ← required (list? (Located.ofJson? (Item.ofJson? form))) items⟩

end Program

end Avr
