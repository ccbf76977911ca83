import Avr.Device
import Avr.Lowering.Move
import Avr.Lowering.Update

namespace Avr.Selection

def loadConst (dest : Reg) (k : Int32) : Selection :=
  if k = 0 then onReg .clr dest
  else if -128 ≤ k ∧ k ≤ 255 then onNumber .ldi dest (k &&& 0xff)
  else fail .valueTooBig

def readIo (dest : Reg) (address : Nat) : Selection :=
  emit (if address ≤ Device.ioEnd then .input else .lds) [.reg dest, .number (Int32.ofNat address)]

def writeIo (address : Nat) (source : Reg) : Selection :=
  emit (if address ≤ Device.ioEnd then .output else .sts)
    [.number (Int32.ofNat address), .reg source]

def loadCell (dest : Reg) (address : Nat) : Selection :=
  emit .lds [.reg dest, .number (Int32.ofNat address)]

def storeCell (address : Nat) (source : Reg) : Selection :=
  emit .sts [.number (Int32.ofNat address), .reg source]

/-- Without operands the instruction fills the first register. -/
def loadFlash (dest : Reg) : Bool → Selection
  | false => if dest.number = 0 then emit .lpm [] else emit .lpm [.reg dest, .pointer (.plain .z)]
  | true => emit .lpm [.reg dest, .pointer (.postIncrement .z)]

def copyReg (dest source : Reg) : Selection :=
  if source = dest then nothing else onRegs .mov dest source

def loadComplement (m : Mnemonic) (dest : Reg) : Value → Selection
  | .reg s => sequence [copyReg dest s, onReg m dest]
  | _ => fail .registerExpected

/-- Loads an operand that needs no computation. -/
def load (dest : Reg) : Value → Selection
  | .const k => loadConst dest k
  | .reg s => copyReg dest s
  | .io p => if p.size = 1 then readIo dest p.address else fail .differentSizes
  | .mem (.displaced b q) => emit .ldd [.reg dest, .displaced b q]
  | .mem (.pointer p) => emit .ld [.reg dest, .pointer p]
  | .flash increment => loadFlash dest increment
  | .var v =>
    if !v.isArray && v.type.size = 1 then loadCell dest v.address else fail .differentSizes
  | .cell a => loadCell dest a
  | .external v =>
    if v.type.size = 1 then emit .lds [.reg dest, .external (v.reference 0)]
    else fail .differentSizes
  | .unary .neg v => loadComplement .neg dest v
  | .unary .bitNot v => loadComplement .com dest v
  | .signed v => load dest v
  | .group _ => fail .differentSizes
  | v => fail v.misuse

/-- Loads the base of a chain and applies its steps. The target must not be needed by a step once it
is overwritten. -/
def computeReg (dest : Reg) (chain : Value.Chain) : Selection :=
  if chain.base.isBinary then fail .unsupported
  else if chain.base ≠ .reg dest && chain.steps.any (·.2.mentions dest) then
    fail (.destinationUsed dest.text)
  else
    sequence (load dest chain.base :: chain.steps.map fun (op, v) => update op (.reg dest) v)

def assignReg (dest : Reg) : Value → Selection
  | .binary op a b => computeReg dest (Value.binary op a b).simplify.linearize
  | .unary (.step op) v => sequence [step op v, assignReg dest v]
  | .suffix op v => sequence [assignReg dest v, step op v]
  | v => load dest v

/-- Whether a constant read with or without a sign fits that many bytes. -/
def fitsBytes (width : Nat) (k : Int32) : Bool :=
  4 ≤ width || (-(1 <<< (8 * width - 1)) ≤ k.toInt && k.toInt < 1 <<< (8 * width))

def loadGroupConst (dest : List Reg) (k : Int32) : Selection :=
  if !fitsBytes dest.length k then fail .valueTooBig
  else
    sequence ((highFirst dest).map fun (n, r) =>
      if constByte k n = 0 then onReg .clr r else onNumber .ldi r (constByte k n))

/-- Addresses have two bytes. -/
def loadAddress (dest : List Reg) (e : AddrExpr) : Selection :=
  match e.constant? with
  | some k => loadGroupConst dest k
  | none =>
    match dest with
    | [high, low] =>
      sequence [emit .ldi [.reg high, .address e.high], emit .ldi [.reg low, .address e.low]]
    | _ => fail .differentSizes

def loadExternalAddress (dest : List Reg) (e : ExternalRef) : Selection :=
  match dest with
  | [high, low] =>
    sequence [emit .ldi [.reg high, .external (e.cut .high)],
      emit .ldi [.reg low, .external (e.cut .low)]]
  | _ => fail .differentSizes

/-- The first register of the group that a step needs after the group is overwritten. -/
def clobbered? (dest : List Reg) (chain : Value.Chain) : Option Reg :=
  if chain.base = .group dest then none
  else dest.find? fun r => chain.steps.any (·.2.mentions r)

def assignGroup (dest : List Reg) : Value → Selection
  | .const k => loadGroupConst dest k
  | .group source => moveGroup dest source
  | .var v =>
    if v.isArray then loadAddress dest (.const (Int32.ofNat v.address))
    else if v.type.size = dest.length then
      sequence ((highFirst dest).map fun (n, r) => loadCell r (v.address + n))
    else fail .differentSizes
  | .io p =>
    if p.size = dest.length then
      sequence ((highFirst dest).map fun (n, r) => readIo r (wrap32 (p.address + n)))
    else fail .differentSizes
  | .external v =>
    if v.type = .ptr ∧ v.offset = 0 then loadExternalAddress dest (v.reference 0)
    else if v.type.size = dest.length then
      sequence ((highFirst dest).map fun (n, r) =>
        emit .lds [.reg r, .external (v.reference (Int32.ofNat n))])
    else fail .differentSizes
  | .label l | .symbol l => loadAddress dest (.address l)
  | .binary op a b =>
    let v := (Value.binary op a b).simplify
    match v.address?, v.externalAddress?, Value.foldedChain? op a b with
    | some e, _, _ => loadAddress dest e
    | none, some e, _ => loadExternalAddress dest e
    | none, none, none => fail .unsupported
    | none, none, some ⟨chain, _⟩ =>
      match clobbered? dest chain with
      | some r => fail (.destinationUsed r.text)
      | none =>
        sequence (assignGroup dest chain.base ::
          chain.steps.map fun (op, v) => update op (.group dest) v)
  | .unary (.step op) v => sequence [step op v, assignGroup dest v]
  | .suffix op v => sequence [assignGroup dest v, step op v]
  | .signed v => assignGroup dest v
  | .reg _ => fail .differentSizes
  | v => fail v.misuse
termination_by v => v.weight
decreasing_by all_goals simp_all [Value.weight]

def storeReg (target : Value) (source : Reg) : Selection :=
  match target with
  | .mem (.displaced b q) => emit .std [.displaced b q, .reg source]
  | .mem (.pointer p) => emit .st [.pointer p, .reg source]
  | .io p => if p.size = 1 then writeIo p.address source else fail .differentSizes
  | .var v =>
    if !v.isArray && v.type.size = 1 then storeCell v.address source else fail .differentSizes
  | .cell a => storeCell a source
  | .external v =>
    if v.type.size = 1 then emit .sts [.external (v.reference 0), .reg source]
    else fail .differentSizes
  | v => fail v.misuse

/-- The high byte goes to the highest address, and goes first. -/
def storeGroup (target : Value) (source : List Reg) : Selection :=
  match target with
  | .var v =>
    if !v.isArray && v.type.size = source.length then
      sequence ((highFirst source).map fun (n, r) => storeCell (v.address + n) r)
    else fail .differentSizes
  | .external v =>
    if v.type.size = source.length then
      sequence ((highFirst source).map fun (n, r) =>
        emit .sts [.external (v.reference (Int32.ofNat n)), .reg r])
    else fail .differentSizes
  | .io p =>
    if p.size = source.length then
      sequence ((highFirst source).map fun (n, r) => writeIo (wrap32 (p.address + n)) r)
    else fail .differentSizes
  | .cell _ | .mem _ => fail .differentSizes
  | v => fail v.misuse

/-- Only registers can be stored. -/
def store (target : Value) : Value → Selection
  | .reg r => storeReg target r
  | .group rs => storeGroup target rs
  | .unary (.step op) v => sequence [step op v, store target v]
  | .suffix op v => sequence [store target v, step op v]
  | .signed v => store target v
  | v => fail v.misuse

def bitMask (bit : Fin 8) : Int32 := 1 <<< Int32.ofNat bit.val

def bitNumber (bit : Nat) : Operand := .number (Int32.ofNat bit)

def assignRegBit (r : Reg) (bit : Fin 8) : Value → Selection
  | .const 0 => onNumber .cbr r (bitMask bit)
  | .const 1 => onNumber .sbr r (bitMask bit)
  | .regBit s n => sequence [emit .bst [.reg s, bitNumber n], emit .bld [.reg r, bitNumber bit]]
  | _ => fail .invalidArgument

def assignStatusBit (bit : Nat) : Value → Selection
  | .const 0 => emit .bclr [bitNumber bit]
  | .const 1 => emit .bset [bitNumber bit]
  | _ => fail .invalidArgument

/-- Copies a register bit by clearing and setting, each under its own skip. -/
def copyToIoBit (port bit : Operand) (s : Reg) (n : Fin 8) (first second : Mnemonic) : Selection :=
  sequence [emit first [.reg s, bitNumber n], emit .cbi [port, bit],
    emit second [.reg s, bitNumber n], emit .sbi [port, bit]]

def assignIoBit (address bit : Nat) (value : Value) : Selection :=
  let port : Operand := .number (Int32.ofNat address)
  if Device.lowIoEnd < address then fail .lowAddressExpected
  else
    match value with
    | .const 0 => emit .cbi [port, bitNumber bit]
    | .const 1 => emit .sbi [port, bitNumber bit]
    | .regBit s n => copyToIoBit port (bitNumber bit) s n .sbrs .sbrc
    | .unary .not (.regBit s n) => copyToIoBit port (bitNumber bit) s n .sbrc .sbrs
    | _ => fail .invalidArgument

def assignSingle (target value : Value) : Selection :=
  match target.unmarked with
  | .reg r => assignReg r value
  | .group rs => assignGroup rs value
  | .regBit r bit => assignRegBit r bit value
  | .statusBit bit => assignStatusBit bit value
  | .ioBit address bit => assignIoBit address bit value
  | .symbol l => fail (Value.symbol l).misuse
  | target => store target value

/-- In `a = b = c` the inner assignment is done first, and then its target is the value. -/
def assign (target : Value) : Value → Selection
  | .assign .set t v => sequence [assign t v, assign target t]
  | .assign (.update op) t v => sequence [update op t v, assign target t]
  | v => assignSingle target v

def assignBy : AssignOp → Value → Value → Selection
  | .set, target, value => assign target value
  | .update op, target, value => update op target value

end Avr.Selection
