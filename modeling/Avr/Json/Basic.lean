namespace Avr

inductive Json
  | null
  | bool (b : Bool)
  | int (i : Int)
  /-- A number written with a fraction or an exponent, or negative zero. -/
  | real
  | str (s : String)
  | arr (items : List Json)
  | obj (members : List (String × Json))
  /-- A well-formed value that can be passed over but not used: a text or a member's name with half
  of a surrogate pair, a number too large for a double, or brackets nested too deep. -/
  | unusable

namespace Json

mutual
/-- How deep arrays and objects are nested. -/
def depth : Json → Nat
  | arr items => depthItems items + 1
  | obj members => depthMembers members + 1
  | _ => 0
def depthItems : List Json → Nat
  | [] => 0
  | j :: js => max j.depth (depthItems js)
def depthMembers : List (String × Json) → Nat
  | [] => 0
  | (_, j) :: ms => max j.depth (depthMembers ms)
end

mutual
/-- Whether every part of the value can be used, also what its reader would pass over. A text that
has to be a value as a whole is accepted by this. -/
def isUsable : Json → Bool
  | arr items => usableItems items
  | obj members => usableMembers members
  | unusable => false
  | _ => true
def usableItems : List Json → Bool
  | [] => true
  | j :: js => j.isUsable && usableItems js
def usableMembers : List (String × Json) → Bool
  | [] => true
  | (_, j) :: ms => j.isUsable && usableMembers ms
end

end Json

end Avr
