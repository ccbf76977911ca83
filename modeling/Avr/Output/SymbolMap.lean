import Avr.Output.AsmText

namespace Avr.SymbolMap

def line (symbol : String × Nat) : String := Numeral.hex 4 symbol.2 ++ ": " ++ symbol.1

def text (l : Listing) : String :=
  AsmText.ofLines ((l.labels.filter fun s => !AsmText.isProbe s.1).map line)

end Avr.SymbolMap
