import Avr.Source.Tree
import Avr.Text.Column
import Avr.Text.Quoted

namespace Avr

open Text (quoted quotedChar)

/-- A node with named parts. -/
def describeNode (name : String) (fields : List (String × String)) : String :=
  name ++ " \x7b " ++ String.intercalate ", " (fields.map fun (k, v) => k ++ ": " ++ v) ++ " \x7d"

def describeList (items : List String) : String := "[" ++ String.intercalate ", " items ++ "]"

def describeLocated (l : Location) (value : String) : String :=
  describeNode "Located" [("location", l.text), ("value", value)]

mutual

def Expr.describe (e : Expr) : String :=
  match e with
  | .number k => "Number(" ++ toString k.toInt ++ ")"
  | .char c => "Char(" ++ quotedChar c ++ ")"
  | .str s => "Str(" ++ quoted s ++ ")"
  | .ident name => "Ident(" ++ quoted name ++ ")"
  | .register name => "Register(" ++ quoted name ++ ")"
  | .group items => "Group(" ++ describeList (describeItems items) ++ ")"
  | .binary op ⟨ll, l⟩ ⟨rl, r⟩ =>
    describeNode "Binary" [("op", op.name), ("left", describeLocated ll l.describe),
      ("right", describeLocated rl r.describe)]
  | .unary op ⟨l, e⟩ =>
    describeNode "Prefix" [("op", op.name), ("operand", describeLocated l e.describe)]
  | .suffix op ⟨l, e⟩ =>
    describeNode "Suffix" [("op", op.name), ("operand", describeLocated l e.describe)]
  | .assign op ⟨tl, t⟩ ⟨vl, v⟩ =>
    describeNode "Assign" [("op", op.name), ("target", describeLocated tl t.describe),
      ("value", describeLocated vl v.describe)]
  | .arrow ⟨bl, b⟩ ⟨ml, m⟩ =>
    describeNode "Arrow" [("base", describeLocated bl b.describe),
      ("member", describeLocated ml m.describe)]
  | .index ⟨bl, b⟩ ⟨il, i⟩ =>
    describeNode "Index" [("base", describeLocated bl b.describe),
      ("index", describeLocated il i.describe)]
  | .call ⟨name, args⟩ =>
    "Call(" ++ describeNode "Call" [("name", describeLocated name.location (quoted name.value)),
      ("args", describeList (describeArguments args))] ++ ")"
  | .signed ⟨l, e⟩ => "Signed(" ++ describeLocated l e.describe ++ ")"
termination_by structural e

def describeItems (items : List (Located Expr)) : List String :=
  match items with
  | [] => []
  | ⟨l, e⟩ :: rest => describeLocated l e.describe :: describeItems rest
termination_by structural items

def describeArguments (args : List (Argument Expr)) : List String :=
  match args with
  | [] => []
  | ⟨name, ⟨l, e⟩⟩ :: rest =>
    let named :=
      match name with
      | some name => "Some(" ++ quoted name ++ ")"
      | none => "None"
    describeNode "Argument" [("name", named), ("value", describeLocated l e.describe)] ::
      describeArguments rest
termination_by structural args

end

end Avr
