import Avr.Lowering.Program

namespace Avr

/-- A program laid out for all selected formats, with what there is to warn of. -/
structure Compiled where
  outputs : Outputs
  warnings : List (Located Warning)

/-- A label defined twice is found while the trace is laid out, and stands in it before any fault
that ended the lowering. -/
def compile (device : Device) (program : Program) (outputs : Outputs) : Checked Compiled := do
  let trace := program.lower device outputs.linksExternals
  let outputs ← outputs.emitAll trace.emitted
  trace.outcome
  return { outputs, warnings := trace.warnings }

end Avr
