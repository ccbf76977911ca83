import Avr.Machine.Instruction
import Avr.Error

namespace Avr

structure Code where
  instructions : List Instruction := []
  warnings : List Warning := []
deriving DecidableEq

namespace Code

def append (c d : Code) : Code := ⟨c.instructions ++ d.instructions, c.warnings ++ d.warnings⟩

end Code

/-- The code chosen for an operation, or why it has none. -/
abbrev Selection := Except Error Code

namespace Selection

/-- No code at all. -/
def nothing : Selection := .ok {}

def fail (e : SemanticError) : Selection := .error (.semantic e)

def warn (w : Warning) : Selection := .ok { warnings := [w] }

def emit (m : Mnemonic) (operands : List Operand) : Selection :=
  match Instruction.make m operands with
  | .ok i => .ok { instructions := [i] }
  | .error e => .error (.encoding e)

/-- One after the other. The first fault wins. -/
def sequence : List Selection → Selection
  | [] => nothing
  | s :: rest => do return (← s).append (← sequence rest)

/-- An instruction with one or two register operands. -/
def onReg (m : Mnemonic) (r : Reg) : Selection := emit m [.reg r]

def onRegs (m : Mnemonic) (d s : Reg) : Selection := emit m [.reg d, .reg s]

def onNumber (m : Mnemonic) (r : Reg) (k : Int32) : Selection := emit m [.reg r, .number k]

end Selection

/-- Byte `n` of a constant, byte 0 being the least significant. The sign goes on beyond the word. -/
def constByte (k : Int32) (n : Nat) : Int32 :=
  if n < 4 then (k >>> Int32.ofNat (8 * n)) &&& 0xff else if k < 0 then 0xff else 0

/-- Registers of a group with the number of the byte that each holds, the high byte first. -/
def highFirst (rs : List Reg) : List (Nat × Reg) := (List.range rs.length).reverse.zip rs

/-- The same from the low byte up. -/
def lowFirst (rs : List Reg) : List (Nat × Reg) := (List.range rs.length).zip rs.reverse

end Avr
