import Avr.Output.Format
import Avr.Output.IntelHex
import Avr.Output.SymbolMap

namespace Avr

inductive Linkage
  | external | global
deriving DecidableEq

inductive Emission
  | org (origin : Nat)
  | label (name : Located String)
  | instruction (i : Located Instruction)
  | data (d : Located Data)
  | limit (s : SizeLimit)
  /-- Makes a symbol known to the linker. -/
  | declare (symbol : String) (linkage : Linkage)

namespace Emission

def isInstruction : Emission → Bool
  | instruction _ => true
  | _ => false

end Emission

inductive Artifact
  | bytes (bs : List UInt8)
  | text (s : String)

structure Outputs where
  formats : List Format
  options : OutputOptions
  layout : Layout := {}
  externals : Array String := #[]
  globals : Array String := #[]

namespace Outputs

/-- Selects formats. Their order and repetitions do not matter. -/
def ofFormats (formats : List Format) (options : OutputOptions) : Outputs :=
  { formats := Format.all.filter (· ∈ formats), options }

def linksExternals (o : Outputs) : Bool := o.formats.any Format.linksExternals

def withSymbol (symbols : Array String) (symbol : String) : Array String :=
  if symbol ∈ symbols then symbols else symbols.push symbol

def declare (o : Outputs) (symbol : String) : Linkage → Outputs
  | .external => { o with externals := withSymbol o.externals symbol }
  | .global => { o with globals := withSymbol o.globals symbol }

/-- Without any format there is nothing to assemble, and so no label to define twice. -/
def emit (o : Outputs) (e : Emission) : Checked Outputs :=
  if o.formats.isEmpty then .ok o
  else
    match e with
    | .org origin => .ok { o with layout := o.layout.org origin }
    | .label name => do return { o with layout := ← o.layout.label name }
    | .instruction i => .ok { o with layout := o.layout.instruction i }
    | .data d => .ok { o with layout := o.layout.data d }
    | .limit s => .ok { o with layout := o.layout.limit s }
    | .declare symbol linkage => .ok (o.declare symbol linkage)

def emitAll (o : Outputs) (es : List Emission) : Checked Outputs := es.foldlM emit o

def artifact (o : Outputs) (f : Format) : Checked Artifact := do
  let listing ← o.layout.resolve f.linksExternals
  match f with
  | .binary => return .bytes (Image.bytes o.options.fill 0 (← Image.pages listing))
  | .hex => return .text (IntelHex.text o.options.hexWidth (← Image.pages listing))
  | .asm => return .text (AsmText.plain listing)
  | .gcc => return .text (AsmText.gcc o.externals.toList o.globals.toList listing)
  | .map => return .text (SymbolMap.text listing)

/-- All artifacts, or the first fault in the order of the formats. -/
def finish (o : Outputs) : Checked (List (Format × Artifact)) :=
  o.formats.mapM fun f => do return (f, ← o.artifact f)

end Outputs

end Avr
