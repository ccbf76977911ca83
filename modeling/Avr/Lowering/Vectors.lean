import Avr.Lowering.Asm

namespace Avr

/-- What a vector does. -/
inductive VectorAction
  | run (i : AsmInstruction)
  | jumpToMain
  | giveUp

namespace VectorAction

def ofName? (entries : List VectorEntry) (name : String) : Option VectorAction :=
  (entries.find? (·.name.value = name)).map fun e => run e.instruction.value

/-- A vector without an entry starts the program, if it is the reset vector and there is one to
start, and goes where the default entry says if not. -/
def choose (entries : List VectorEntry) (hasMain : Bool) (vector : String) : VectorAction :=
  match ofName? entries vector with
  | some action => action
  | none =>
    if vector = "RESET" ∧ hasMain then jumpToMain else (ofName? entries "default").getD giveUp

/-- Emits the instruction and gives its size. -/
def lower (s : Scope) (l : Location) : VectorAction → Lowering Nat
  | run i => s.asm i
  | jumpToMain => do
    s.goto l (.plain "main")
    return Mnemonic.rjmp.size
  | giveUp => do
    s.place l (Selection.emit .reti [])
    return Mnemonic.reti.size

end VectorAction

namespace Globals

def checkVectors (g : Globals) (entries : List VectorEntry) : Trace Unit :=
  entries.forM fun e =>
    Trace.require e.name.location (.unknownVector e.name.value)
      (e.name.value = "default" ∨ (g.device.interrupt? e.name.value).isSome)

def vector (g : Globals) (l : Location) (entries : List VectorEntry) (index : Nat)
    (vector : Interrupt) : Lowering Unit := do
  let slot := g.device.vectorSlotSize index
  let action := VectorAction.choose entries (g.procedure? "main").isSome vector.name
  let size ← Lowering.limited 1 slot l
    (action.lower { globals := g, comment := some vector.name } l)
  let padding := (slot - size + 1) / 2
  (List.replicate padding ()).forM fun _ => Trace.place none l (Selection.emit .nop [])

def vectors (g : Globals) (table : Located (List VectorEntry)) : Lowering Unit := do
  g.checkVectors table.value
  g.device.interrupts.zipIdx.forM fun (i, index) => g.vector table.location table.value index i

end Globals

end Avr
