import Avr.Json.Basic

namespace Avr.Json

def str? : Json → Option String
  | str s => some s
  | _ => none

def bool? : Json → Option Bool
  | bool b => some b
  | _ => none

def int32? : Json → Option Int32
  | int i =>
    if Int32.minValue.toInt ≤ i ∧ i ≤ Int32.maxValue.toInt then some (Int32.ofInt i) else none
  | _ => none

/-- A whole number below `bound`. -/
def nat? (bound : Nat) : Json → Option Nat
  | int i => if 0 ≤ i ∧ i < bound then some i.toNat else none
  | _ => none

def word? : Json → Option Nat := nat? UInt32.size

def byte? : Json → Option Nat := nat? UInt8.size

def char? : Json → Option Char
  | str s =>
    match s.toList with
    | [c] => some c
    | _ => none
  | _ => none

def list? (item : Json → Option α) : Json → Option (List α)
  | arr js => js.mapM item
  | _ => none

/-- The field's value, or `none` where the object lacks it. Fails where it comes twice. -/
def member? (members : List (String × Json)) (name : String) : Option (Option Json) :=
  match members.filter (·.1 = name) with
  | [] => some none
  | [(_, j)] => some (some j)
  | _ => none

/-- The fields of a record, in the order of their names. -/
def fields? (names : List String) : Json → Option (List (Option Json))
  | obj members => names.mapM (member? members)
  | arr js =>
    if js.length ≤ names.length then
      some (js.map some ++ List.replicate (names.length - js.length) none)
    else none
  | _ => none

/-- How the fields of a choice may be given: by name alone, or also by their order. -/
inductive CaseForm
  | named | loose

/-- The fields of a choice, in the order of their names. -/
def caseFields? (form : CaseForm) (names : List String) (j : Json) :
    Option (List (Option Json)) :=
  match form, j with
  | .named, arr _ => none
  | _, j => j.fields? names

def required (decode : Json → Option α) : Option Json → Option α
  | some j => decode j
  | none => none

/-- A field that may be absent, but not null. -/
def defaulted (default : α) (decode : Json → Option α) : Option Json → Option α
  | some j => decode j
  | none => some default

/-- A field that may be absent or null. -/
def optional (decode : Json → Option α) : Option Json → Option (Option α)
  | none | some null => some none
  | some j => (decode j).map some

/-- The name of a choice with its content, if it has any. -/
def choice? : Json → Option (String × Option Json)
  | str name => some (name, none)
  | obj [(name, j)] => some (name, some j)
  | _ => none

/-- A choice without content, taken from a list by name. -/
def choiceOf? (all : List α) (name : α → String) (j : Json) : Option α := do
  match ← j.choice? with
  | (s, none) | (s, some null) => all.find? (name · = s)
  | _ => none

end Avr.Json
