import Avr.Lowering.Address
import Avr.Lowering.Resolve

namespace Avr.Names

/-- Texts stand in rows of bytes only, one item for each byte of their encoding. -/
def dataItem (n : Names) (width : DataWidth) (e : Located Expr) : Trace (List AddrExpr) :=
  match e.value with
  | .str s =>
    if width = .byte then pure (s.toUTF8.toList.map fun b => .const (Int32.ofNat b.toNat))
    else .fail e.location .invalidArgument
  | .char c => pure [.const (Int32.ofNat c.toNat)]
  | _ => do
    match ← Trace.get e.location .invalidArgument (← n.resolve e).address? with
    | .const k => if width.fits k then return [.const k] else .fail e.location .valueTooBig
    | a => return [a]

def dataRow (n : Names) (block : DataBlock) : Trace Data := do
  return { width := block.width, values := (← block.items.mapM (n.dataItem block.width)).flatten }

end Avr.Names
