import Avr.Text.Numeral

namespace Avr

-- Numerals stand for registers, for pairs and for bits. The zero is the one that numerals use.
instance registers_ne_zero : @NeZero Nat Zero.ofOfNat0 32 := ⟨by decide⟩

instance pairs_ne_zero : @NeZero Nat Zero.ofOfNat0 16 := ⟨by decide⟩

instance bits_ne_zero : @NeZero Nat Zero.ofOfNat0 8 := ⟨by decide⟩

structure Reg where
  index : Fin 32
deriving DecidableEq

namespace Reg

def ofNat? (n : Nat) : Option Reg := if h : n < 32 then some ⟨⟨n, h⟩⟩ else none

def number (r : Reg) : Nat := r.index.val

/-- Only these take an immediate operand. -/
def isHigh (r : Reg) : Bool := 16 ≤ r.number

def text (r : Reg) : String := s!"r{r.number}"

def halfNames : List (String × Fin 32) :=
  [("xl", 26), ("xh", 27), ("yl", 28), ("yh", 29), ("zl", 30), ("zh", 31)]

/-- A leading zero is refused, as in `r01`. -/
def ofDigits? : List Char → Option Reg
  | '0' :: _ :: _ => none
  | cs => (Numeral.ofChars? 10 cs).bind ofNat?

/-- Names are read in either case. -/
def ofName? (name : String) : Option Reg :=
  match halfNames.lookup name.toLower with
  | some i => some ⟨i⟩
  | none =>
    match name.toList with
    | 'r' :: cs | 'R' :: cs => ofDigits? cs
    | _ => none

end Reg

/-- Index registers. -/
inductive Base
  | x | y | z
deriving DecidableEq

/-- The pair of registers `2 * half` and `2 * half + 1`. -/
structure Pair where
  half : Fin 16
deriving DecidableEq

namespace Pair

def low (p : Pair) : Reg := ⟨⟨2 * p.half.val, by omega⟩⟩

def high (p : Pair) : Reg := ⟨⟨2 * p.half.val + 1, by omega⟩⟩

def ofLow? (r : Reg) : Option Pair :=
  if r.number % 2 = 0 then some ⟨⟨r.index.val / 2, by omega⟩⟩ else none

def base? (p : Pair) : Option Base :=
  if p.half = 13 then some .x else if p.half = 14 then some .y
  else if p.half = 15 then some .z else none

/-- The last four pairs take `adiw` and `sbiw`. -/
def isWord (p : Pair) : Bool := 12 ≤ p.half.val

/-- The pair whose registers are listed, the high one first. -/
def ofList? : List Reg → Option Pair
  | [high, low] => if high.number = low.number + 1 then ofLow? low else none
  | _ => none

end Pair

namespace Base

def pair : Base → Pair
  | x => ⟨13⟩ | y => ⟨14⟩ | z => ⟨15⟩

def text : Base → String
  | x => "X" | y => "Y" | z => "Z"

/-- Unlike registers, index registers are named in upper case only. -/
def ofName? : String → Option Base
  | "X" => some x | "Y" => some y | "Z" => some z | _ => none

def mentions (b : Base) (r : Reg) : Bool := b.pair.low = r || b.pair.high = r

end Base

namespace Pair

def text (p : Pair) : String :=
  match p.base? with
  | some b => b.text
  | none => p.high.text ++ ":" ++ p.low.text

end Pair

inductive Pointer
  | plain (b : Base)
  | postIncrement (b : Base)
  | preDecrement (b : Base)
deriving DecidableEq

namespace Pointer

def base : Pointer → Base
  | plain b | postIncrement b | preDecrement b => b

def text : Pointer → String
  | plain b => b.text
  | postIncrement b => b.text ++ "+"
  | preDecrement b => "-" ++ b.text

end Pointer

end Avr
