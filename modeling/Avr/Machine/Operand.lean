import Avr.Machine.Register
import Avr.Machine.Symbol

namespace Avr

inductive Operand
  | reg (r : Reg)
  | pair (p : Pair)
  | pointer (p : Pointer)
  | displaced (b : Base) (q : Int32)
  | number (k : Int32)
  | label (l : LabelRef)
  | address (e : AddrExpr)
  | external (r : ExternalRef)
deriving DecidableEq

namespace Operand

/-- Known only once labels are placed, or only to the linker. -/
def isSymbolic : Operand → Bool
  | label _ | address _ | external _ => true
  | _ => false

def text : Operand → String
  | reg r => r.text
  | pair p => p.text
  | pointer p => p.text
  | displaced b q => b.text ++ "+" ++ toString q.toInt
  | number k => toString k.toInt
  | label l => l.name
  | address e => e.text
  | external r => r.text

end Operand

end Avr
