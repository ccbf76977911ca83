import Avr.Json.Basic
import Avr.Text.Numeral

namespace Avr.Json.Reader

def isBlank (c : Char) : Bool := c = ' ' || c = '\t' || c = '\n' || c = '\r'

def skip (cs : List Char) : List Char := cs.dropWhile isBlank

def isDigit (c : Char) : Bool := '0' ≤ c && c ≤ '9'

/-- One digit or more, and what follows them. -/
def digits (cs : List Char) : Option (List Char × List Char) :=
  match cs.span isDigit with
  | ([], _) => none
  | found => some found

/-- A number has no superfluous leading zero. -/
def whole : List Char → Option (List Char × List Char)
  | '0' :: cs => some (['0'], cs)
  | cs => digits cs

/-- The digits of a fraction, none if there is no fraction. -/
def fraction : List Char → Option (List Char × List Char)
  | '.' :: cs => digits cs
  | cs => some ([], cs)

def sign : List Char → Bool × List Char
  | '+' :: cs => (false, cs)
  | '-' :: cs => (true, cs)
  | cs => (false, cs)

def signed (negative : Bool) (n : Nat) : Int := if negative then -n else n

def exponent : List Char → Option (Option Int × List Char)
  | 'e' :: cs | 'E' :: cs => do
    let (negative, cs) := sign cs
    let (ds, cs) ← digits cs
    return (some (signed negative (← Numeral.ofChars? 10 ds)), cs)
  | cs => some (none, cs)

/-- From here on a number is nearer to the next power of two than to the largest double. -/
def doubleLimit : Nat := (1 <<< 1024) - (1 <<< 970)

/-- Whether a number of `count` digits with value `m`, times ten to the `e`, is too large for a
double. The limit has 309 digits, so that the count alone tells in most cases. -/
def exceedsDouble (count m : Nat) (e : Int) : Bool :=
  if m = 0 || (count : Int) + e < 309 then false
  else if 0 ≤ e then 309 < e || doubleLimit ≤ m * Nat.pow 10 e.toNat
  else doubleLimit * Nat.pow 10 (-e).toNat ≤ m

def number (negative : Bool) (cs : List Char) : Option (Json × List Char) := do
  let (ds, cs) ← whole cs
  let (fs, cs) ← fraction cs
  let (e, cs) ← exponent cs
  let m ← Numeral.ofChars? 10 (ds ++ fs)
  let j :=
    if exceedsDouble (ds.length + fs.length) m (e.getD 0 - fs.length) then unusable
    else if fs.isEmpty && e.isNone && !(negative && m = 0) then int (signed negative m)
    else real
  return (j, cs)

def hex4 (a b c d : Char) : Option Nat := Numeral.digits? 16 0 [a, b, c, d]

def escape? : Char → Option Char
  | '"' => some '"'
  | '\\' => some '\\'
  | '/' => some '/'
  | 'b' => some '\x08'
  | 'f' => some '\x0c'
  | 'n' => some '\n'
  | 'r' => some '\r'
  | 't' => some '\t'
  | _ => none

def isLeading (n : Nat) : Bool := 0xd800 ≤ n && n < 0xdc00

def isTrailing (n : Nat) : Bool := 0xdc00 ≤ n && n < 0xe000

/-- Half of a surrogate pair is no character by itself. -/
def lone (n : Nat) : Option Char :=
  if isLeading n || isTrailing n then none else some (Char.ofNat n)

/-- The rest of a string, up to its closing quote. A half of a surrogate pair that stands alone is
given as none. -/
def string : List Char → Option (List (Option Char) × List Char)
  | [] => none
  | '"' :: cs => some ([], cs)
  | '\\' :: 'u' :: a :: b :: c :: d :: '\\' :: 'u' :: e :: f :: g :: h :: cs => do
    let n ← hex4 a b c d
    let m ← hex4 e f g h
    if isLeading n && isTrailing m then
      let (s, cs) ← string cs
      return (some (Char.ofNat (0x10000 + (n - 0xd800) * 0x400 + (m - 0xdc00))) :: s, cs)
    else
      let (s, cs) ← string ('\\' :: 'u' :: e :: f :: g :: h :: cs)
      return (lone n :: s, cs)
  | '\\' :: 'u' :: a :: b :: c :: d :: cs => do
    let n ← hex4 a b c d
    let (s, cs) ← string cs
    return (lone n :: s, cs)
  | '\\' :: c :: cs => do
    let c ← escape? c
    let (s, cs) ← string cs
    return (some c :: s, cs)
  | c :: cs =>
    if c.toNat < 0x20 || c = '\\' then none
    else do
      let (s, cs) ← string cs
      return (some c :: s, cs)

def text? (s : List (Option Char)) : Option String := (s.mapM id).map String.ofList

/-- A value without brackets. -/
def scalar : List Char → Option (Json × List Char)
  | 'n' :: 'u' :: 'l' :: 'l' :: cs => some (null, cs)
  | 't' :: 'r' :: 'u' :: 'e' :: cs => some (bool true, cs)
  | 'f' :: 'a' :: 'l' :: 's' :: 'e' :: cs => some (bool false, cs)
  | '"' :: cs => do
    let (s, cs) ← string cs
    return (((text? s).map str).getD unusable, cs)
  | '-' :: cs => number true cs
  | cs => number false cs

/-- A member's name and the colon after it. -/
def name (cs : List Char) : Option (Option String × List Char) := do
  let '"' :: cs := skip cs | none
  let (s, cs) ← string cs
  let ':' :: cs := skip cs | none
  return (text? s, cs)

inductive Bracket
  | square | curly

/-- What stands next where values are passed over. -/
inductive Turn
  | value | member | rest

/-- Passes over values until the brackets that are open have been closed, and gives what follows.
`fuel` bounds the steps; every step but the last takes at least one character. -/
def pass : (fuel : Nat) → Turn → (opened : List Bracket) → List Char → Option (List Char)
  | 0, _, _, _ => none
  | _ + 1, .rest, [], cs => some cs
  | fuel + 1, .rest, .square :: opened, cs =>
    match skip cs with
    | ',' :: cs => pass fuel .value (.square :: opened) cs
    | ']' :: cs => pass fuel .rest opened cs
    | _ => none
  | fuel + 1, .rest, .curly :: opened, cs =>
    match skip cs with
    | ',' :: cs => pass fuel .member (.curly :: opened) cs
    | '\x7d' :: cs => pass fuel .rest opened cs
    | _ => none
  | fuel + 1, .member, opened, cs =>
    match name cs with
    | some (_, cs) => pass fuel .value opened cs
    | none => none
  | fuel + 1, .value, opened, cs =>
    match skip cs with
    | '[' :: cs =>
      match skip cs with
      | ']' :: cs => pass fuel .rest opened cs
      | cs => pass fuel .value (.square :: opened) cs
    | '\x7b' :: cs =>
      match skip cs with
      | '\x7d' :: cs => pass fuel .rest opened cs
      | cs => pass fuel .member (.curly :: opened) cs
    | cs =>
      match scalar cs with
      | some (_, cs) => pass fuel .rest opened cs
      | none => none

/-- One value that is not kept. -/
def passed (cs : List Char) : Option (Json × List Char) :=
  (pass (cs.length + 1) .value [] cs).map fun cs => (unusable, cs)

/-- An object, unless one of its members has a name that is no text. -/
def object (members : List (Option String × Json)) : Json :=
  match members.mapM fun (name, j) => name.map (·, j) with
  | some members => obj members
  | none => unusable

mutual
/-- One value after blanks. `fuel` bounds the steps, `depth` the brackets still allowed. -/
def value : (fuel depth : Nat) → List Char → Option (Json × List Char)
  | 0, _, _ => none
  | fuel + 1, depth, cs =>
    match depth, skip cs with
    | 0, '[' :: cs => passed ('[' :: cs)
    | 0, '\x7b' :: cs => passed ('\x7b' :: cs)
    | depth + 1, '[' :: cs =>
      match skip cs with
      | ']' :: cs => some (arr [], cs)
      | cs => do
        let (js, cs) ← items fuel depth cs
        return (arr js, cs)
    | depth + 1, '\x7b' :: cs =>
      match skip cs with
      | '\x7d' :: cs => some (obj [], cs)
      | cs => do
        let (ms, cs) ← members fuel depth cs
        return (object ms, cs)
    | _, cs => scalar cs
def items : (fuel depth : Nat) → List Char → Option (List Json × List Char)
  | 0, _, _ => none
  | fuel + 1, depth, cs => do
    let (j, cs) ← value fuel depth cs
    match skip cs with
    | ',' :: cs =>
      let (js, cs) ← items fuel depth cs
      return (j :: js, cs)
    | ']' :: cs => return ([j], cs)
    | _ => none
def members : (fuel depth : Nat) → List Char → Option (List (Option String × Json) × List Char)
  | 0, _, _ => none
  | fuel + 1, depth, cs => do
    let (name, cs) ← name cs
    let (j, cs) ← value fuel depth cs
    match skip cs with
    | ',' :: cs =>
      let (ms, cs) ← members fuel depth cs
      return ((name, j) :: ms, cs)
    | '\x7d' :: cs => return ([(name, j)], cs)
    | _ => none
end

end Reader

def maxDepth : Nat := 127

def ofChars? (cs : List Char) : Option Json :=
  match Reader.value (cs.length + 1) maxDepth cs with
  | some (j, rest) => if (Reader.skip rest).isEmpty then some j else none
  | none => none

def ofString? (s : String) : Option Json := ofChars? s.toList

end Avr.Json
