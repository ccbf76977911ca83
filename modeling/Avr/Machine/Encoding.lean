import Avr.Machine.Instruction

namespace Avr

abbrev Word := BitVec 16

inductive Encoding
  | single (w : Word)
  | double (first second : Word)
deriving DecidableEq

namespace Word

def bytes (w : Word) : List UInt8 := [UInt8.ofNat w.toNat, UInt8.ofNat (w.toNat / 256)]

end Word

namespace Encoding

/-- In the order of program memory: low byte first. -/
def bytes : Encoding → List UInt8
  | single w => w.bytes
  | double w v => w.bytes ++ v.bytes

end Encoding

abbrev Positions := List Nat

namespace Positions

/-- The bits of `n` at the listed positions, and zero elsewhere. -/
def deposit : Positions → Nat → Word
  | [], _ => 0
  | p :: ps, n => (if n % 2 = 1 then BitVec.twoPow 16 p else 0) ||| deposit ps (n / 2)

/-- First register. -/
def d5 : Positions := [4, 5, 6, 7, 8]
/-- Second register. -/
def r5 : Positions := [0, 1, 2, 3, 9]
/-- High register, or a pair. -/
def d4 : Positions := [4, 5, 6, 7]
def r4 : Positions := [0, 1, 2, 3]
def d3 : Positions := [4, 5, 6]
/-- Bit number. -/
def b3 : Positions := [0, 1, 2]
/-- One of the four word pairs. -/
def d2 : Positions := [4, 5]
def k8 : Positions := [0, 1, 2, 3, 8, 9, 10, 11]
def k7 : Positions := [3, 4, 5, 6, 7, 8, 9]
def k12 : Positions := [0, 1, 2, 3, 4, 5, 6, 7, 8, 9, 10, 11]
def k6 : Positions := [0, 1, 2, 3, 6, 7]
def a6 : Positions := [0, 1, 2, 3, 9, 10]
def a5 : Positions := [3, 4, 5, 6, 7]
/-- Displacement from an index register. -/
def q6 : Positions := [0, 1, 2, 10, 11, 13]
/-- The bits of a 22-bit target above its low word. -/
def far6 : Positions := [0, 4, 5, 6, 7, 8]

end Positions

/-- How the words of a mnemonic are built from its operands. -/
inductive WordLayout
  /-- Each operand at its own positions. -/
  | fields (code : Word) (positions : List Positions)
  /-- One register in both register fields, as in `tst r` for `and r, r`. -/
  | twice (code : Word)
  /-- A register, and the complement of the given byte. -/
  | complement (code : Word)
  /-- A 22-bit target over two words. -/
  | far (code : Word)
  /-- A register, and a data address in the second word. -/
  | load (code : Word)
  | store (code : Word)
  /-- The addressing mode selects the opcode. -/
  | loadIndirect | storeIndirect
  | loadDisplaced | storeDisplaced
  | loadProgram (bare plain increment : Word)

open Positions in
def Mnemonic.layout : Mnemonic → WordLayout
  | .nop => .fields 0x0000 []
  | .sec => .fields 0x9408 []
  | .clc => .fields 0x9488 []
  | .sen => .fields 0x9428 []
  | .cln => .fields 0x94a8 []
  | .sez => .fields 0x9418 []
  | .clz => .fields 0x9498 []
  | .sei => .fields 0x9478 []
  | .cli => .fields 0x94f8 []
  | .ses => .fields 0x9448 []
  | .cls => .fields 0x94c8 []
  | .sev => .fields 0x9438 []
  | .clv => .fields 0x94b8 []
  | .set => .fields 0x9468 []
  | .clt => .fields 0x94e8 []
  | .seh => .fields 0x9458 []
  | .clh => .fields 0x94d8 []
  | .sleep => .fields 0x9588 []
  | .wdr => .fields 0x95a8 []
  | .ijmp => .fields 0x9409 []
  | .eijmp => .fields 0x9419 []
  | .icall => .fields 0x9509 []
  | .eicall => .fields 0x9519 []
  | .ret => .fields 0x9508 []
  | .reti => .fields 0x9518 []
  | .spm => .fields 0x95e8 []
  | .espm => .fields 0x95f8 []
  | .brk => .fields 0x9598 []
  | .add => .fields 0x0c00 [d5, r5]
  | .adc => .fields 0x1c00 [d5, r5]
  | .sub => .fields 0x1800 [d5, r5]
  | .sbc => .fields 0x0800 [d5, r5]
  | .and => .fields 0x2000 [d5, r5]
  | .or => .fields 0x2800 [d5, r5]
  | .eor => .fields 0x2400 [d5, r5]
  | .cp => .fields 0x1400 [d5, r5]
  | .cpc => .fields 0x0400 [d5, r5]
  | .cpse => .fields 0x1000 [d5, r5]
  | .mov => .fields 0x2c00 [d5, r5]
  | .mul => .fields 0x9c00 [d5, r5]
  | .tst => .twice 0x2000
  | .clr => .twice 0x2400
  | .lsl => .twice 0x0c00
  | .rol => .twice 0x1c00
  | .subi => .fields 0x5000 [d4, k8]
  | .sbci => .fields 0x4000 [d4, k8]
  | .andi => .fields 0x7000 [d4, k8]
  | .ori | .sbr => .fields 0x6000 [d4, k8]
  | .cpi => .fields 0x3000 [d4, k8]
  | .ldi => .fields 0xe000 [d4, k8]
  | .cbr => .complement 0x7000
  | .com => .fields 0x9400 [d5]
  | .neg => .fields 0x9401 [d5]
  | .swap => .fields 0x9402 [d5]
  | .inc => .fields 0x9403 [d5]
  | .asr => .fields 0x9405 [d5]
  | .lsr => .fields 0x9406 [d5]
  | .ror => .fields 0x9407 [d5]
  | .dec => .fields 0x940a [d5]
  | .push => .fields 0x920f [d5]
  | .pop => .fields 0x900f [d5]
  | .ser => .fields 0xef0f [d4]
  | .brbs => .fields 0xf000 [b3, k7]
  | .brbc => .fields 0xf400 [b3, k7]
  | .breq => .fields 0xf001 [k7]
  | .brne => .fields 0xf401 [k7]
  | .brcs | .brlo => .fields 0xf000 [k7]
  | .brcc | .brsh => .fields 0xf400 [k7]
  | .brmi => .fields 0xf002 [k7]
  | .brpl => .fields 0xf402 [k7]
  | .brge => .fields 0xf404 [k7]
  | .brlt => .fields 0xf004 [k7]
  | .brhs => .fields 0xf005 [k7]
  | .brhc => .fields 0xf405 [k7]
  | .brts => .fields 0xf006 [k7]
  | .brtc => .fields 0xf406 [k7]
  | .brvs => .fields 0xf003 [k7]
  | .brvc => .fields 0xf403 [k7]
  | .brie => .fields 0xf007 [k7]
  | .brid => .fields 0xf407 [k7]
  | .rjmp => .fields 0xc000 [k12]
  | .rcall => .fields 0xd000 [k12]
  | .jmp => .far 0x940c
  | .call => .far 0x940e
  | .adiw => .fields 0x9600 [d2, k6]
  | .sbiw => .fields 0x9700 [d2, k6]
  | .input => .fields 0xb000 [d5, a6]
  | .output => .fields 0xb800 [a6, d5]
  | .sbic => .fields 0x9900 [a5, b3]
  | .sbis => .fields 0x9b00 [a5, b3]
  | .sbi => .fields 0x9a00 [a5, b3]
  | .cbi => .fields 0x9800 [a5, b3]
  | .sbrc => .fields 0xfc00 [d5, b3]
  | .sbrs => .fields 0xfe00 [d5, b3]
  | .bst => .fields 0xfa00 [d5, b3]
  | .bld => .fields 0xf800 [d5, b3]
  | .bset => .fields 0x9408 [d3]
  | .bclr => .fields 0x9488 [d3]
  | .lds => .load 0x9000
  | .sts => .store 0x9200
  | .ld => .loadIndirect
  | .st => .storeIndirect
  | .ldd => .loadDisplaced
  | .std => .storeDisplaced
  | .lpm => .loadProgram 0x95c8 0x9004 0x9005
  | .elpm => .loadProgram 0x95d8 0x9006 0x9007
  | .movw => .fields 0x0100 [d4, r4]
  | .muls => .fields 0x0200 [d4, r4]
  | .mulsu => .fields 0x0300 [d3, b3]
  | .fmul => .fields 0x0308 [d3, b3]
  | .fmuls => .fields 0x0380 [d3, b3]
  | .fmulsu => .fields 0x0388 [d3, b3]

namespace Operand

/-- What the operand stores in the slot. A number stores its two's complement bits. -/
def bits (s : Slot) : Operand → Nat
  | reg r => if s = .evenPair ∨ s = .wordPair then r.number / 2 else r.number
  | pair p => p.half.val
  | displaced _ q => q.toBitVec.toNat
  | number k => k.toBitVec.toNat
  | _ => 0

end Operand

namespace Pointer

def code : Pointer → Word
  | plain .x => 0x900c
  | postIncrement .x => 0x900d
  | preDecrement .x => 0x900e
  | plain .y => 0x8008
  | postIncrement .y => 0x9009
  | preDecrement .y => 0x900a
  | plain .z => 0x8000
  | postIncrement .z => 0x9001
  | preDecrement .z => 0x9002

end Pointer

namespace Operand

/-- Opcode of a load through the pointer. -/
def pointerCode : Operand → Word
  | pointer p => p.code
  | _ => 0

/-- Opcode of a displaced load, displacement included. -/
def displacedCode : Operand → Word
  | displaced b q => (Pointer.plain b).code ||| Positions.deposit .q6 q.toBitVec.toNat
  | pointer (.plain b) => (Pointer.plain b).code
  | _ => 0

end Operand

namespace WordLayout

/-- Opcode bit that tells a store from a load. -/
def storeBit : Word := 0x0200

def place (code : Word) : List Positions → List Slot → List Operand → Word
  | p :: ps, s :: ss, o :: os => place (code ||| p.deposit (o.bits s)) ps ss os
  | _, _, _ => code

def register (o : Operand) : Word := Positions.deposit .d5 (o.bits .reg)

def assemble (slots : List Slot) (operands : List Operand) (layout : WordLayout) : Encoding :=
  let first := operands[0]?.getD (.number 0)
  let second := operands[1]?.getD (.number 0)
  let number (o : Operand) : Nat := o.bits .imm8
  match layout with
  | fields code ps => .single (place code ps slots operands)
  | twice code =>
    .single (code ||| Positions.deposit .d5 (number first) ||| Positions.deposit .r5 (number first))
  | complement code =>
    .single (code ||| Positions.deposit .d4 (number first)
      ||| Positions.deposit .k8 (255 - number second % 256))
  | far code =>
    .double (code ||| Positions.deposit .far6 (number first / 65536))
      (BitVec.ofNat 16 (number first))
  | load code => .double (code ||| register first) (BitVec.ofNat 16 (number second))
  | store code => .double (code ||| register second) (BitVec.ofNat 16 (number first))
  | loadIndirect => .single (second.pointerCode ||| register first)
  | storeIndirect => .single (first.pointerCode ||| storeBit ||| register second)
  | loadDisplaced => .single (second.displacedCode ||| register first)
  | storeDisplaced => .single (first.displacedCode ||| storeBit ||| register second)
  | loadProgram bare plain increment =>
    .single <|
      match operands with
      | [d, .pointer (.postIncrement _)] => increment ||| register d
      | [d, _] => plain ||| register d
      | _ => bare

end WordLayout

namespace Instruction

/-- Every operand must be a register, a pointer or a number in range by now. -/
def encode (i : Instruction) : Except EncodingError Encoding := do
  let slots ← i.mnemonic.form i.operands
  match i.operands.find? Operand.isSymbolic with
  | some o => .error (.unresolved i.mnemonic o)
  | none => return i.mnemonic.layout.assemble slots i.operands

end Instruction

end Avr
