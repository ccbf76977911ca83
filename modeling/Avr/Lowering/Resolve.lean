import Avr.Lowering.Names
import Avr.Lowering.Trace
import Avr.Source.Describe

namespace Avr

namespace Value

def constant (l : Location) : Value → Trace Int32
  | const k => pure k
  | _ => .fail l .constantExpected

/-- The registers of a register or a group. -/
def registers (l : Location) : Value → Trace (List Reg)
  | reg r => pure [r]
  | group rs => pure rs
  | _ => .fail l .registerExpected

def ofRegisters : List Reg → Value
  | [r] => reg r
  | rs => group rs

def bit? : Value → Option (Fin 8)
  | const k => if h : 0 ≤ k ∧ k.toNatClampNeg < 8 then some ⟨k.toNatClampNeg, h.2⟩ else none
  | _ => none

/-- The number of a bit of a byte. -/
def bitNumber (l : Location) (v : Value) : Trace (Fin 8) := do
  let k ← v.constant l
  Trace.get l .bitExpected (const k).bit?

def ofBinary (l : Location) (op : BinaryOp) (a b : Value) : Trace Value :=
  match a, b with
  | const j, const k => do return const (← Trace.get l .divisionByZero (op.apply j k))
  | _, _ => pure (binary op a b)

def ofUnary (op : UnaryOp) (v : Value) : Value :=
  match op, v with
  | .neg, const k => const (-k)
  | .bitNot, const k => const (~~~k)
  | .not, const k => const (BinaryOp.truth (k = 0))
  | _, _ => unary op v

/-- The index register and the displacement of a sum, in either order. -/
def baseAndOffset? : Value → Value → Option (Base × Int32)
  | const q, v | v, const q => v.base?.map (·, q)
  | _, _ => none

/-- Of the index registers, `X` takes no displacement. -/
def indirect? (a b : Value) : Option Indirect :=
  match baseAndOffset? a b with
  | some (base, q) =>
    if q = 0 then some (.pointer (.plain base))
    else if base = .x then none
    else some (.displaced base q)
  | none => none

end Value

namespace Indirect

/-- Program memory is read through `Z` only. -/
def flash? : Indirect → Option Value
  | pointer (.plain .z) => some (.flash false)
  | pointer (.postIncrement .z) => some (.flash true)
  | _ => none

end Indirect

namespace Expr

def ident? : Expr → Option String
  | ident name => some name
  | _ => none

/-- A word that names a bit or a part of something. -/
def word? : Expr → Option String
  | ident name | register name => some name
  | _ => none

end Expr

namespace Names

/-- Looks a name up. `follow` gives the value of the expression that the name is bound to. -/
def value (n : Names) (follow : String → Located Expr → Trace Value) (l : Location)
    (name : String) : Trace Value :=
  if name = "RAMEND" then do
    return .const (Int32.ofNat (← Trace.get l .noRam n.globals.device.ramEnd?))
  else
    match n.bindings.lookup name with
    | some target => follow name target
    | none => pure (n.declared name)

def memberBit (n : Names) (l : Location) (port : Port) (name : String) : Trace Nat :=
  Trace.get l (.unknownBit name) ((n.globals.device.register? port.name).bind (·.bit? name))

/-- A pin belongs to three registers of its port. -/
def pinBit (n : Names) (baseLoc memberLoc : Location) (pin : Pin) (member : Option String) :
    Trace Value := do
  let kind ← Trace.get memberLoc .invalidArgument (member.bind fun m =>
    [("pin", "PIN"), ("port", "PORT"), ("ddr", "DDR")].lookup m)
  let register := kind ++ String.singleton pin.port
  let io ← Trace.get baseLoc (.invalidPin register) (n.globals.device.register? register)
  return .ioBit io.address pin.bit

def portBit (port : Port) (bit : Nat) : Value :=
  if port.name = Device.statusRegister then .statusBit bit else .ioBit port.address bit

/-- The bytes that the named variable takes in RAM. -/
def sizeOfVariable (n : Names) (l : Location) (e : Expr) : Trace Int32 :=
  match e.ident? with
  | some name => do
    let v ← Trace.get l (.variableExpected name) (n.globals.var? name)
    return Int32.ofNat v.size
  | none => .fail l (.variableExpected e.describe)

/-- Sets one more bit of a mask. -/
def maskWith (l : Location) (mask : Int32) (bit : Nat) : Trace Int32 := do
  let one : Int32 := 1 <<< Int32.ofNat bit
  if mask &&& one ≠ 0 then Trace.warn l (.duplicateBit bit)
  return mask ||| one

mutual

/-- The value of an expression, where `follow` is the value of a bound name. -/
def eval (n : Names) (follow : String → Located Expr → Trace Value) (l : Location) (e : Expr) :
    Trace Value :=
  match e with
  | .number k => pure (.const k)
  | .char c => pure (.const (Int32.ofNat c.toNat))
  | .str _ => .fail l .unsupported
  | .ident name => n.value follow l name
  | .register name => Trace.get l (.unknownIdentifier name) (register? name)
  | .group items => do return Value.ofRegisters (← n.evalRegisters follow items)
  | .binary op ⟨al, a⟩ ⟨bl, b⟩ => do
    let x ← n.eval follow al a
    let y ← n.eval follow bl b
    Value.ofBinary l op x y
  | .unary op ⟨il, i⟩ => do return Value.ofUnary op (← n.eval follow il i)
  | .suffix op ⟨il, i⟩ => do return .suffix op (← n.eval follow il i)
  | .assign op ⟨tl, t⟩ ⟨vl, v⟩ => do
    let target ← n.eval follow tl t
    return .assign op target (← n.eval follow vl v)
  | .arrow ⟨bl, b⟩ ⟨ml, m⟩ =>
    match b.ident?.bind n.globals.pin? with
    | some pin => n.pinBit bl ml pin m.word?
    | none => do
      match ← n.eval follow bl b with
      | .io port =>
        match m.word? with
        | some name => return portBit port (← n.memberBit ml port name)
        | none => return portBit port (← (← n.eval follow ml m).bitNumber ml)
      | v => .fail bl v.misuse
  | .index ⟨bl, b⟩ ⟨il, i⟩ =>
    match b.ident? with
    | some "mem" => do return .mem (← n.evalAddress follow il i fun _ => n.eval follow il i)
    | some "prg" => do
      let address ← n.evalAddress follow il i fun _ => n.eval follow il i
      Trace.get il .invalidArgument address.flash?
    | _ => do
      match ← n.eval follow bl b with
      | .reg r =>
        match i.ident?.bind n.globals.pin? with
        | some pin => return .regBit r pin.bit
        | none => return .regBit r (← (← n.eval follow il i).bitNumber il)
      | .external v =>
        let k ← (← n.eval follow il i).constant il
        return .external { v with type := .byte, offset := v.offset + k }
      | .var v =>
        let k ← (← n.eval follow il i).constant il
        if k < 0 ∨ v.size ≤ k.toNatClampNeg then .fail il .invalidArgument
        else return .cell (wrap32 (v.address + k.toNatClampNeg))
      | v => .fail bl v.misuse
  | .call ⟨name, args⟩ =>
    match name.value with
    | "high" =>
      match args with
      | [⟨_, ⟨al, a⟩⟩] => do
        return .const (((← (← n.eval follow al a).constant al) >>> 8) &&& 0xff)
      | _ => .fail name.location (.singleArgument args.length)
    | "low" =>
      match args with
      | [⟨_, ⟨al, a⟩⟩] => do return .const ((← (← n.eval follow al a).constant al) &&& 0xff)
      | _ => .fail name.location (.singleArgument args.length)
    | "sizeof" =>
      match args with
      | [⟨_, ⟨al, a⟩⟩] => do return .const (← n.sizeOfVariable al a)
      | _ => .fail name.location (.singleArgument args.length)
    | "bitmask" => do
      if args.isEmpty then Trace.fail name.location .noArguments
      else return .const (← n.evalBits follow args none 0)
    | function => .fail name.location (.unknownFunction function)
  | .signed ⟨il, i⟩ => do return .signed (← n.eval follow il i)
termination_by structural e

/-- Addressing modes. `whole` is the value of the expression itself. -/
def evalAddress (n : Names) (follow : String → Located Expr → Trace Value) (l : Location)
    (e : Expr) (whole : Unit → Trace Value) : Trace Indirect :=
  match e with
  | .suffix .inc ⟨il, i⟩ => do
    let v ← n.eval follow il i
    return .pointer (.postIncrement (← Trace.get il .invalidArgument v.base?))
  | .unary (.step .dec) ⟨il, i⟩ => do
    let v ← n.eval follow il i
    return .pointer (.preDecrement (← Trace.get il .invalidArgument v.base?))
  | .binary (.arith .add) ⟨al, a⟩ ⟨bl, b⟩ => do
    let x ← n.eval follow al a
    let y ← n.eval follow bl b
    Trace.get l .invalidArgument (Value.indirect? x y)
  | _ => do return .pointer (.plain (← Trace.get l .invalidArgument (← whole ()).base?))
termination_by structural e

/-- The registers of all items, one after the other. -/
def evalRegisters (n : Names) (follow : String → Located Expr → Trace Value)
    (items : List (Located Expr)) : Trace (List Reg) :=
  match items with
  | [] => pure []
  | ⟨l, e⟩ :: rest => do
    let rs ← (← n.eval follow l e).registers l
    return rs ++ (← n.evalRegisters follow rest)
termination_by structural items

/-- A mask of bits given by name or by number. A name is sought first in the register of the bit
before. -/
def evalBits (n : Names) (follow : String → Located Expr → Trace Value)
    (args : List (Argument Expr)) (last : Option IoRegister) (mask : Int32) : Trace Int32 :=
  match args with
  | [] => pure mask
  | ⟨_, ⟨l, e⟩⟩ :: rest =>
    match e.word? with
    | some name => do
      let (last, bit) ← Trace.get l (.unknownBit name) (n.globals.namedBit? last name)
      n.evalBits follow rest last (← maskWith l mask bit)
    | none => do
      let bit ← (← n.eval follow l e).bitNumber l
      n.evalBits follow rest last (← maskWith l mask bit)
termination_by structural args

end

/-- The value of a bound name. A chain of names without a repetition is no longer than the list of
all bound names. -/
def followUpTo (n : Names) : Nat → String → Located Expr → Trace Value
  | 0, name, target => .fail target.location (.cyclicName name)
  | k + 1, _, target => n.eval (n.followUpTo k) target.location target.value

def resolve (n : Names) (e : Located Expr) : Trace Value :=
  n.eval (n.followUpTo n.bindings.length) e.location e.value

def constant (n : Names) (e : Located Expr) : Trace Int32 := do
  (← n.resolve e).constant e.location

end Names

end Avr
