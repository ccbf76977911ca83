import Avr.Error
import Avr.Machine.Instruction
import Avr.Source.DataType

namespace Avr

/-- A row of raw values in program memory. -/
structure Data where
  width : DataWidth
  values : List AddrExpr
deriving DecidableEq

namespace Data

def unpadded (d : Data) : Nat := d.width.size * d.values.length

/-- Program memory is made of words, so an odd row takes one more byte. -/
def size (d : Data) : Nat := d.unpadded + d.unpadded % 2

end Data

inductive Entry
  | label (name : Located String)
  | instruction (i : Located Instruction)
  | data (d : Located Data)

namespace Entry

def size : Entry → Nat
  | label _ => 0
  | instruction i => i.value.size
  | data d => d.value.size

end Entry

structure Block where
  origin : Nat := 0
  size : Nat := 0
  entries : Array Entry := #[]

namespace Block

def stop (b : Block) : Nat := b.origin + b.size

def push (b : Block) (e : Entry) : Block :=
  { b with entries := b.entries.push e, size := b.size + e.size }

end Block

/-- From one label to another there may be at most `max` bytes. -/
structure SizeLimit where
  start : String
  stop : String
  max : Nat
  location : Location

structure Layout where
  closed : Array Block := #[]
  current : Option Block := none
  labels : List (String × Nat) := []
  limits : Array SizeLimit := #[]

namespace Layout

def blocks (l : Layout) : List Block := l.closed.toList ++ l.current.toList

/-- Address of the next entry. -/
def cursor (l : Layout) : Nat :=
  match l.current with
  | some b => b.stop
  | none => 0

def push (l : Layout) (e : Entry) : Layout :=
  { l with current := some ((l.current.getD {}).push e) }

/-- Goes on at another address. A block that is still empty moves there. -/
def org (l : Layout) (origin : Nat) : Layout :=
  match l.current with
  | some b =>
    if b.entries.isEmpty then { l with current := some { b with origin } }
    else { l with closed := l.closed.push b, current := some { origin } }
  | none => { l with current := some { origin } }

def label (l : Layout) (name : Located String) : Checked Layout :=
  if (l.labels.lookup name.value).isSome then
    .error ⟨name.location, .semantic (.labelDefined name.value)⟩
  else
    .ok { l.push (.label name) with labels := (name.value, l.cursor) :: l.labels }

def instruction (l : Layout) (i : Located Instruction) : Layout := l.push (.instruction i)

def data (l : Layout) (d : Located Data) : Layout := l.push (.data d)

def limit (l : Layout) (s : SizeLimit) : Layout := { l with limits := l.limits.push s }

def find? (l : Layout) (r : LabelRef) : Option Nat := r.find? l.labels

end Layout

end Avr
