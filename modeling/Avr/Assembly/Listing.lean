import Avr.Assembly.Layout
import Avr.Machine.Encoding

namespace Avr

inductive Content
  | label (name : String)
  | instruction (source resolved : Instruction)
  | data (source : Data) (values : List Int32)

structure Line where
  offset : Nat
  location : Location
  content : Content
  bytes : List UInt8

structure Section where
  origin : Nat
  lines : List Line

namespace Section

def bytes (s : Section) : List UInt8 := s.lines.flatMap Line.bytes

def size (s : Section) : Nat := s.bytes.length

/-- Where the first line that takes up space was written. -/
def location? (s : Section) : Option Location :=
  (s.lines.find? (!·.bytes.isEmpty)).map Line.location

end Section

/-- The labels stand in the order of their addresses, and of their names at one address. -/
structure Listing where
  sections : List Section
  labels : List (String × Nat)

namespace Listing

/-- The name under which a reference was found. -/
def target (l : Listing) (r : LabelRef) : String :=
  (r.candidates.find? fun name => (l.labels.lookup name).isSome).getD r.name

end Listing

namespace AddrError

def toError : AddrError → Error
  | unplaced l => .resolution (.labelNotFound l.name)
  | divisionByZero => .resolution .divisionByZero

end AddrError

namespace Data

def itemBytes (width : DataWidth) (k : Int32) : List UInt8 :=
  (List.range width.size).map fun i => UInt8.ofNat (k.toBitVec.toNat >>> (8 * i))

/-- Items in order, each with its low byte first, and a zero byte after an odd row. -/
def bytes (d : Data) (values : List Int32) : Except EncodingError (List UInt8) :=
  match values.find? (!d.width.fits ·) with
  | some k => .error (.dataOutOfRange d.width.size k)
  | none =>
    let row := values.flatMap (itemBytes d.width)
    .ok (row ++ List.replicate (row.length % 2) 0)

end Data

namespace Layout

/-- A jump counts words from the next instruction; every other slot takes a word address. -/
def reference (here target : Nat) (slot : Slot) : Int32 :=
  if slot.isRelative then (Int32.ofNat target - Int32.ofNat here) / 2 - 1
  else Int32.ofNat (target / 2)

/-- The number that a symbolic operand stands for. A linker fills in externals itself. -/
def resolveOperand (l : Layout) (linker : Bool) (here : Nat) (slot : Slot) :
    Operand → Except Error Operand
  | .label r =>
    match l.find? r with
    | some target => .ok (.number (reference here target slot))
    | none => .error (.resolution (.labelNotFound r.name))
  | .address e =>
    match e.eval l.find? with
    | .ok k => .ok (.number k)
    | .error e => .error e.toError
  | .external r => if linker then .ok (.number 0) else .error (.resolution (.external r.symbol))
  | o => .ok o

def resolveOperands (l : Layout) (linker : Bool) (here : Nat) :
    List Slot → List Operand → Except Error (List Operand)
  | s :: ss, o :: os => do
    let o ← l.resolveOperand linker here s o
    return o :: (← l.resolveOperands linker here ss os)
  | _, _ => .ok []

def resolveInstruction (l : Layout) (linker : Bool) (here : Nat) (i : Instruction) :
    Except Error (Instruction × List UInt8) := do
  let slots ← (i.mnemonic.form i.operands).mapError .encoding
  let operands ← l.resolveOperands linker here slots i.operands
  let resolved := { i with operands }
  let encoding ← resolved.encode.mapError .encoding
  return (resolved, encoding.bytes)

def resolveData (l : Layout) (d : Data) : Except Error (List Int32 × List UInt8) := do
  let values ← d.values.mapM fun e => (e.eval l.find?).mapError AddrError.toError
  let bytes ← (d.bytes values).mapError .encoding
  return (values, bytes)

def line (l : Layout) (linker : Bool) (here : Nat) : Entry → Checked Line
  | .label n => .ok ⟨here, n.location, .label n.value, []⟩
  | .instruction i =>
    match l.resolveInstruction linker here i.value with
    | .ok (resolved, bytes) => .ok ⟨here, i.location, .instruction i.value resolved, bytes⟩
    | .error e => .error ⟨i.location, e⟩
  | .data d =>
    match l.resolveData d.value with
    | .ok (values, bytes) => .ok ⟨here, d.location, .data d.value values, bytes⟩
    | .error e => .error ⟨d.location, e⟩

def lines (l : Layout) (linker : Bool) : Nat → List Entry → Checked (List Line)
  | _, [] => .ok []
  | here, e :: es => do
    let line ← l.line linker here e
    return line :: (← l.lines linker (here + line.bytes.length) es)

def resolveBlock (l : Layout) (linker : Bool) (b : Block) : Checked Section := do
  return ⟨b.origin, ← l.lines linker b.origin b.entries.toList⟩

/-- Limits name labels exactly. A stop before its start counts as no bytes at all. -/
def checkLimit (l : Layout) (s : SizeLimit) : Checked Unit :=
  let fail (e : Error) : Checked Unit := .error ⟨s.location, e⟩
  match l.labels.lookup s.start, l.labels.lookup s.stop with
  | none, _ => fail (.resolution (.missingProbe s.start))
  | _, none => fail (.resolution (.missingProbe s.stop))
  | some a, some b => if b - a > s.max then fail (.budget (.tooLarge s.max (b - a))) else .ok ()

def labelBefore (a b : String × Nat) : Bool := a.2 < b.2 || (a.2 = b.2 && a.1 ≤ b.1)

def resolve (l : Layout) (linker : Bool) : Checked Listing := do
  let sections ← l.blocks.mapM (l.resolveBlock linker)
  l.limits.toList.forM l.checkLimit
  return ⟨sections, l.labels.mergeSort labelBefore⟩

end Layout

end Avr
