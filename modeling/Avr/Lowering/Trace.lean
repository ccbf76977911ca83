import Avr.Lowering.Code
import Avr.Output.Outputs

namespace Avr

structure Trace (α : Type) where
  emitted : List Emission := []
  warnings : List (Located Warning) := []
  outcome : Checked α

namespace Trace

def bind (x : Trace α) (f : α → Trace β) : Trace β :=
  match x.outcome with
  | .error e => { x with outcome := .error e }
  | .ok a =>
    let y := f a
    ⟨x.emitted ++ y.emitted, x.warnings ++ y.warnings, y.outcome⟩

instance : Monad Trace where
  pure a := { outcome := .ok a }
  bind := bind

def throw (l : Location) (e : Error) : Trace α := { outcome := .error ⟨l, e⟩ }

def fail (l : Location) (e : SemanticError) : Trace α := throw l (.semantic e)

def emit (e : Emission) : Trace Unit := { emitted := [e], outcome := .ok () }

def warn (l : Location) (w : Warning) : Trace Unit := { warnings := [⟨l, w⟩], outcome := .ok () }

def define (l : Location) (name : String) : Trace Unit := emit (.label ⟨l, name⟩)

/-- Puts selected code at a place of the source. -/
def place (comment : Option String) (l : Location) : Selection → Trace Unit
  | .error e => throw l e
  | .ok code =>
    { emitted := code.instructions.map fun i => .instruction ⟨l, i.withComment comment⟩
      warnings := code.warnings.map (⟨l, ·⟩)
      outcome := .ok () }

/-- A fault unless the condition holds. -/
def require (l : Location) (e : SemanticError) (p : Prop) [Decidable p] : Trace Unit :=
  if p then pure () else fail l e

/-- The value, or a fault where there is none. -/
def get (l : Location) (e : SemanticError) : Option α → Trace α
  | some a => pure a
  | none => fail l e

end Trace

end Avr
