import Avr.Device
import Avr.Lowering.Value
import Avr.Source.Tree

namespace Avr

/-- One pin of a port. -/
structure Pin where
  port : Char
  bit : Fin 8
deriving DecidableEq

namespace Pin

/-- A pin is named by the letter of its port and its number, as in `B3`. -/
def ofName? (name : String) : Option Pin :=
  match name.toList with
  | [port, digit] =>
    if h : port.isUpper ∧ '0' ≤ digit ∧ digit.toNat - '0'.toNat < 8 then
      some ⟨port, ⟨digit.toNat - '0'.toNat, h.2.2⟩⟩
    else none
  | _ => none

end Pin

/-- The declarations that hold for the rest of a program. -/
structure Globals where
  device : Device
  procedures : List Procedure := []
  externalProcedures : List Procedure := []
  vars : List Variable := []
  externals : List ExternalVar := []
  pins : List (String × Pin) := []
  aliases : List (String × Located Expr) := []

namespace Globals

def procedure? (g : Globals) (name : String) : Option Procedure :=
  g.procedures.find? (·.name.value = name)

def externalProcedure? (g : Globals) (name : String) : Option Procedure :=
  g.externalProcedures.find? (·.name.value = name)

/-- A procedure that can be called, of this unit or of another. -/
def callable? (g : Globals) (name : String) : Option Procedure :=
  (g.procedure? name).or (g.externalProcedure? name)

def var? (g : Globals) (name : String) : Option Variable :=
  g.vars.find? (·.name = name)

def external? (g : Globals) (name : String) : Option ExternalVar :=
  g.externals.find? (·.symbol = name)

def declaresVariable (g : Globals) (name : String) : Bool :=
  (g.var? name).isSome || (g.external? name).isSome

def pin? (g : Globals) (name : String) : Option Pin := g.pins.lookup name

/-- The number of a bit by its name, and the register to look into for the next one. Pins go first,
then the register of the bit before. -/
def namedBit? (g : Globals) (last : Option IoRegister) (name : String) :
    Option (Option IoRegister × Nat) :=
  match g.pin? name, last.bind (·.bit? name) with
  | some pin, _ => some (last, pin.bit)
  | none, some bit => some (last, bit)
  | none, none => (g.device.registerWithBit? name).map fun (r, bit) => (some r, bit)

end Globals

/-- The names in force at one place. -/
structure Names where
  globals : Globals
  /-- Names that stand for expressions, the innermost first. -/
  bindings : List (String × Located Expr)
  /-- What the names of inner labels begin with, inside a procedure. -/
  stem : Option String := none

namespace Names

/-- A label written by the user is sought inside the procedure first. -/
def labelRef (n : Names) (name : String) : LabelRef :=
  { inner := n.stem.map (· ++ "@" ++ name), name }

def register? (name : String) : Option Value :=
  match Base.ofName? name with
  | some b => some (.group [b.pair.high, b.pair.low])
  | none => (Reg.ofName? name).map .reg

/-- What a name stands for that is bound to no expression: a register, a variable, a procedure or a
port, in this order. -/
def declared (n : Names) (name : String) : Value :=
  let g := n.globals
  match register? name, g.var? name, g.external? name with
  | some v, _, _ => v
  | none, some v, _ => .var v
  | none, none, some v => .external v
  | none, none, none =>
    match g.callable? name, g.device.ioAddress? name with
    | some _, _ => .label (.plain name)
    | none, some io => .io ⟨name, io.address, io.size⟩
    | none, none => .symbol (n.labelRef name)

end Names

end Avr
