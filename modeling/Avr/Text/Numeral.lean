namespace Avr.Numeral

def digit? (radix : Nat) (c : Char) : Option Nat :=
  let n := c.toNat
  let value :=
    if 48 ≤ n ∧ n < 58 then n - 48
    else if 97 ≤ n ∧ n < 123 then n - 87
    else if 65 ≤ n ∧ n < 91 then n - 55
    else radix
  if value < radix then some value else none

def digits? (radix : Nat) : Nat → List Char → Option Nat
  | total, [] => some total
  | total, c :: cs => do digits? radix (total * radix + (← digit? radix c)) cs

def ofChars? (radix : Nat) : List Char → Option Nat
  | [] | ['+'] => none
  | '+' :: cs => digits? radix 0 cs
  | cs => digits? radix 0 cs

def ofString? (radix : Nat) (s : String) : Option Nat := ofChars? radix s.toList

def hexDigit (n : Nat) : Char := Char.ofNat (if n < 10 then 48 + n else 55 + n)

def hexByte (b : UInt8) : List Char := [hexDigit (b.toNat / 16), hexDigit (b.toNat % 16)]

def hexChars (n : Nat) : List Char :=
  if n < 16 then [hexDigit n] else hexChars (n / 16) ++ [hexDigit (n % 16)]

/-- At least `width` digits, filled with zeros on the left. -/
def hex (width n : Nat) : String := String.ofList ((hexChars n).leftpad width '0')

end Avr.Numeral
