import Avr.Machine.Form

namespace Avr

structure Instruction where
  mnemonic : Mnemonic
  operands : List Operand
  comment : Option String := none
deriving DecidableEq

namespace Instruction

def make (m : Mnemonic) (operands : List Operand) : Except EncodingError Instruction := do
  discard (m.form operands)
  return { mnemonic := m, operands }

def withComment (comment : Option String) (i : Instruction) : Instruction := { i with comment }

def size (i : Instruction) : Nat := i.mnemonic.size

def text (i : Instruction) : String :=
  match i.operands with
  | [] => i.mnemonic.name
  | os => i.mnemonic.name ++ " " ++ String.intercalate ", " (os.map Operand.text)

end Instruction

end Avr
