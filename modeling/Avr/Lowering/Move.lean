import Avr.Lowering.Code

namespace Avr

inductive Move
  | byte (dest source : Reg)
  | word (dest source : Pair)
deriving DecidableEq

namespace Move

def sources : Move → List Reg
  | byte _ s => [s]
  | word _ s => [s.low, s.high]

def destinations : Move → List Reg
  | byte d _ => [d]
  | word d _ => [d.low, d.high]

/-- Two byte moves that one word move can do. -/
def word? (m n : Reg × Reg) : Option Move :=
  if n.1.number = m.1.number + 1 ∧ n.2.number = m.2.number + 1 then do
    return word (← Pair.ofLow? m.1) (← Pair.ofLow? m.2)
  else none

/-- Joins neighbouring moves of aligned pairs. -/
def fuse : List (Reg × Reg) → List Move
  | [] => []
  | [m] => [byte m.1 m.2]
  | m :: n :: rest =>
    match word? m n with
    | some w => w :: fuse rest
    | none => byte m.1 m.2 :: fuse (n :: rest)

/-- Some move reads a register that is written before it. -/
def clobbersAfter (written : List Reg) : List Move → Bool
  | [] => false
  | m :: ms => m.sources.any (· ∈ written) || clobbersAfter (written ++ m.destinations) ms

def clobbers (ms : List Move) : Bool := clobbersAfter [] ms

/-- The moves that copy `source` into `dest`, by rising destination, or the other way round if that
order is wrong. -/
def plan? (dest source : List Reg) : Option (List Move) :=
  let moves := (dest.zip source).filter fun (d, s) => d ≠ s
  let rising := fuse (moves.mergeSort fun m n => m.1.number ≤ n.1.number)
  if !clobbers rising then some rising
  else if !clobbers rising.reverse then some rising.reverse
  else none

def select : Move → Selection
  | byte d s => Selection.onRegs .mov d s
  | word d s => Selection.emit .movw [.pair d, .pair s]

end Move

namespace Selection

def moveGroup (dest source : List Reg) : Selection :=
  if dest.length ≠ source.length then fail .differentSizes
  else
    match Move.plan? dest source with
    | some moves => sequence (moves.map Move.select)
    | none => fail .clobberedMove

end Selection

end Avr
