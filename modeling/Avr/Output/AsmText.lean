import Avr.Assembly.Listing
import Avr.Text.Column

namespace Avr.AsmText

inductive Dialect
  | plain | gcc
deriving DecidableEq

/-- The GNU assembler has no `@` in names. -/
def gccName (name : String) : String :=
  if '@' ∈ name.toList then
    "_" ++ String.ofList (name.toList.map fun c => if c = '@' then '_' else c)
  else name

def labelName (d : Dialect) (name : String) : String :=
  match d with
  | .plain => name
  | .gcc => gccName name

def isByteMask (op : BinaryOp) (mask : AddrExpr) : Bool := op = .arith .and && mask = .const 0xff

def parens (e : AddrExpr) (s : String) : String :=
  match e with
  | .binary .. => "(" ++ s ++ ")"
  | _ => s

/-- The low byte of a shift by eight is written as the high byte. -/
def gccAddress (l : Listing) : AddrExpr → String
  | .const k => toString k.toInt
  | .address r => gccName (l.target r)
  | .negate e => "-(" ++ gccAddress l e ++ ")"
  | .binary op (.binary op' inner shift) right =>
    if isByteMask op right then
      if op' = .arith .shr ∧ shift = .const 8 then "hi8(" ++ gccAddress l inner ++ ")"
      else "lo8(" ++ gccAddress l (.binary op' inner shift) ++ ")"
    else
      "(" ++ gccAddress l (.binary op' inner shift) ++ ")" ++ op.symbol
        ++ parens right (gccAddress l right)
  | .binary op left right =>
    if isByteMask op right then "lo8(" ++ gccAddress l left ++ ")"
    else parens left (gccAddress l left) ++ op.symbol ++ parens right (gccAddress l right)

def plainOperand (l : Listing) (source resolved : Operand) : String :=
  match source with
  | .label r => l.target r
  | .address _ | .external _ => resolved.text
  | o => o.text

def gccOperand (l : Listing) : Operand → String
  | .reg r => "R" ++ toString r.number
  | .pair p => "R" ++ toString p.low.number
  | .label r => gccName (l.target r)
  | .address e => gccAddress l e
  | o => o.text

def operand (d : Dialect) (l : Listing) (source resolved : Operand) : String :=
  match d with
  | .plain => plainOperand l source resolved
  | .gcc => gccOperand l source

/-- A comment stands after the operands, which then fill a column of twelve. -/
def instruction (d : Dialect) (l : Listing) (source resolved : Instruction) : String :=
  let name := source.mnemonic.name
  let operands := Column.commas (List.zipWith (operand d l) source.operands resolved.operands)
  match source.comment with
  | some comment => Column.row name (Column.pad 12 operands ++ "; " ++ comment)
  | none => if operands = "" then "\t" ++ name else Column.row name operands

def plainDirective : DataWidth → String
  | .byte => ".db" | .word => ".dw" | .dword => ".dd"

def number (k : Int32) : String := toString k.toInt

def gccItem (l : Listing) (source : AddrExpr) (value : Int32) : String :=
  if source.isConst then number value else gccAddress l source

/-- Four-byte constants are written as words, low word first. A symbol cannot be split so. -/
def gccData (l : Listing) (data : Data) (values : List Int32) : String :=
  let items := List.zipWith (gccItem l) data.values values
  match data.width with
  | .byte =>
    Column.row ".byte" (Column.commas (items ++ List.replicate (items.length % 2) "0"))
  | .word => Column.row ".word" (Column.commas items)
  | .dword =>
    if data.values.all AddrExpr.isConst then
      let words := values.flatMap fun (k : Int32) => [k &&& 0xffff, (k >>> 16) &&& 0xffff]
      Column.row ".word" (Column.commas (words.map number))
    else Column.row ".long" (Column.commas items)

def data (d : Dialect) (l : Listing) (data : Data) (values : List Int32) : String :=
  match d with
  | .plain => Column.row (plainDirective data.width) (Column.commas (values.map number))
  | .gcc => gccData l data values

/-- Labels that begin with `?` only mark the ends of limited regions. -/
def isProbe (name : String) : Bool := name.toList.head? = some '?'

def line (d : Dialect) (l : Listing) (line : Line) : Option String :=
  match line.content with
  | .label name => if isProbe name then none else some (labelName d name ++ ":")
  | .instruction source resolved => some (instruction d l source resolved)
  | .data source values => some (data d l source values)

/-- The first section needs no origin if it starts at zero. -/
def sectionLines (d : Dialect) (l : Listing) (first : Bool) (s : Section) : List String :=
  let origin := if first ∧ s.origin = 0 then [] else [Column.row ".org" (toString s.origin)]
  origin ++ s.lines.filterMap (line d l)

def listingLines (d : Dialect) (l : Listing) : List String :=
  match l.sections with
  | [] => []
  | s :: ss => sectionLines d l true s ++ ss.flatMap (sectionLines d l false)

def ofLines (lines : List String) : String := String.join (lines.map (· ++ "\n"))

def plain (l : Listing) : String := ofLines (listingLines .plain l)

def declarations (directive : String) (symbols : List String) : List String :=
  if symbols.isEmpty then [] else symbols.map (directive ++ " " ++ ·) ++ [""]

def gcc (externals globals : List String) (l : Listing) : String :=
  ofLines <| ["#include <avr/io.h>", ""] ++ declarations ".extern" externals
    ++ declarations ".global" globals ++ listingLines .gcc l

end Avr.AsmText
