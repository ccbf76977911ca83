namespace Avr

structure Position where
  line : Nat
  column : Nat
deriving DecidableEq

namespace Position

def advance (p : Position) : Position := { p with column := p.column + 1 }

/-- Columns count from one, so nothing lies before the first. -/
def back (p : Position) : Position := { p with column := max (p.column - 1) 1 }

def text (p : Position) : String := s!"{p.line}:{p.column}"

end Position

structure Location where
  file : String
  start : Position
  stop : Position
deriving DecidableEq

namespace Location

def point (file : String) (line column : Nat) : Location :=
  let start : Position := ⟨line, column⟩
  ⟨file, start, start.advance⟩

/-- From the start of the first to the end of the second, in the file of the first. -/
def span (l m : Location) : Location := { l with stop := m.stop }

/-- A location of at most one column is written by its start alone. -/
def text (l : Location) : String :=
  if l.stop = l.start.advance ∨ l.stop = l.start then l.file ++ ":" ++ l.start.text
  else l.file ++ ":[" ++ l.start.text ++ "-" ++ l.stop.back.text ++ "]"

end Location

structure Located (α : Type) where
  location : Location
  value : α
deriving DecidableEq

namespace Located

def map (f : α → β) (x : Located α) : Located β := ⟨x.location, f x.value⟩

end Located

end Avr
