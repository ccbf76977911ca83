import Avr.Machine.Mnemonic
import Avr.Machine.Operand

namespace Avr

/-- What an operand position accepts. -/
inductive Slot
  | reg | highReg | mulReg | evenPair | wordPair | pointer | programPointer | displaced
  | imm8 | imm6 | bit | statusBit | io6 | io5 | data16
  /-- Words from the next instruction to a target. -/
  | rel7 | rel12
  /-- Word address of a target. -/
  | abs22
deriving DecidableEq

namespace Slot

def isRelative : Slot → Bool
  | rel7 | rel12 => true
  | _ => false

def isJump : Slot → Bool
  | rel7 | rel12 | abs22 => true
  | _ => false

def range? : Slot → Option (Int32 × Int32)
  | imm8 => some (-128, 255)
  | imm6 => some (0, 63)
  | bit | statusBit => some (0, 7)
  | io6 => some (0, 63)
  | io5 => some (0, 31)
  | data16 => some (0, 0xffff)
  | rel7 => some (-64, 63)
  | rel12 => some (-2048, 2047)
  | abs22 => some (0, 0x3fffff)
  | _ => none

/-- A bit number must be written out; every other number may stand for a symbol. -/
def takesSymbols : Slot → Bool
  | bit | statusBit => false
  | _ => true

end Slot

namespace Mnemonic

open Slot in
def forms : Mnemonic → List (List Slot)
  | nop | sec | clc | sen | cln | sez | clz | sei | cli | ses | cls | sev | clv | set | clt | seh
  | clh | sleep | wdr | ijmp | eijmp | icall | eicall | ret | reti | spm | espm | brk => [[]]
  | add | adc | sub | sbc | and | or | eor | cp | cpc | cpse | mov | mul => [[reg, reg]]
  | subi | sbci | andi | ori | cpi | ldi | sbr | cbr => [[highReg, imm8]]
  | com | neg | swap | inc | asr | lsr | ror | dec | push | pop | tst | clr | lsl | rol => [[reg]]
  | ser => [[highReg]]
  | brbs | brbc => [[statusBit, rel7]]
  | breq | brne | brcs | brcc | brsh | brlo | brmi | brpl | brge | brlt | brhs | brhc | brts | brtc
  | brvs | brvc | brie | brid => [[rel7]]
  | rjmp | rcall => [[rel12]]
  | jmp | call => [[abs22]]
  | adiw | sbiw => [[wordPair, imm6]]
  | input => [[reg, io6]]
  | output => [[io6, reg]]
  | sbic | sbis | sbi | cbi => [[io5, bit]]
  | sbrc | sbrs | bst | bld => [[reg, bit]]
  | bset | bclr => [[statusBit]]
  | lds => [[reg, data16]]
  | sts => [[data16, reg]]
  | ld => [[reg, pointer]]
  | st => [[pointer, reg]]
  | ldd => [[reg, displaced]]
  | std => [[displaced, reg]]
  | lpm | elpm => [[], [reg, programPointer]]
  | movw => [[evenPair, evenPair]]
  | muls => [[highReg, highReg]]
  | mulsu | fmul | fmuls | fmulsu => [[mulReg, mulReg]]

def formOfLength? (m : Mnemonic) (n : Nat) : Option (List Slot) := m.forms.find? (·.length = n)

end Mnemonic

inductive EncodingError
  | wrongOperand (m : Mnemonic) (slot : Slot) (found : Operand)
  | outOfRange (m : Mnemonic) (min max value : Int32)
  | wrongArity (m : Mnemonic) (found : Nat)
  | unresolved (m : Mnemonic) (found : Operand)
  | dataOutOfRange (width : Nat) (value : Int32)
deriving DecidableEq

namespace Slot

def expectation : Slot → String
  | reg => "r0..r31 expected"
  | highReg => "r16..r31 expected"
  | mulReg => "r16..r23 expected"
  | evenPair => "even register pair expected"
  | wordPair => "Register pair must be R25:R24, R27:R26, R29:R28, R31:R30"
  | pointer => "X, X+, -X, Y, Y+, -Y, Z, Z+ or -Z expected"
  | displaced => "Y+q or Z+q expected"
  | programPointer => "Z or Z+ expected"
  | _ => "number expected"

def checkNumber (m : Mnemonic) (s : Slot) (min max : Int32) : Operand → Except EncodingError Unit
  | .number k => if min ≤ k ∧ k ≤ max then .ok () else .error (.outOfRange m min max k)
  | o => if o.isSymbolic && s.takesSymbols then .ok () else .error (.wrongOperand m s o)

/-- Accepts a fitting operand. A symbol fits a number whatever its value will be. -/
def check (m : Mnemonic) (s : Slot) (o : Operand) : Except EncodingError Unit :=
  let demand (ok : Bool) : Except EncodingError Unit :=
    if ok then .ok () else .error (.wrongOperand m s o)
  match s with
  | reg => demand (match o with | .reg _ => true | _ => false)
  | highReg => demand (match o with | .reg r => r.isHigh | _ => false)
  | mulReg => demand (match o with | .reg r => 16 ≤ r.number && r.number < 24 | _ => false)
  | evenPair => demand (match o with | .pair _ => true | .reg r => r.number % 2 = 0 | _ => false)
  | wordPair =>
    demand (match o with
      | .pair p => p.isWord
      | .reg r => 24 ≤ r.number && r.number % 2 = 0
      | _ => false)
  | pointer => demand (match o with | .pointer _ => true | _ => false)
  | programPointer =>
    demand (match o with | .pointer (.plain .z) | .pointer (.postIncrement .z) => true | _ => false)
  | displaced =>
    match o with
    | .displaced .y q | .displaced .z q =>
      if 0 ≤ q ∧ q < 64 then .ok () else .error (.outOfRange m 0 63 q)
    | o => demand (match o with | .pointer (.plain .y) | .pointer (.plain .z) => true | _ => false)
  | s =>
    let (min, max) := s.range?.getD (Int32.minValue, Int32.maxValue)
    checkNumber m s min max o

def checkAll (m : Mnemonic) : List Slot → List Operand → Except EncodingError Unit
  | s :: ss, o :: os => do
    s.check m o
    checkAll m ss os
  | _, _ => .ok ()

end Slot

/-- The form that the operands fill. -/
def Mnemonic.form (m : Mnemonic) (operands : List Operand) : Except EncodingError (List Slot) :=
  match m.formOfLength? operands.length with
  | none => .error (.wrongArity m operands.length)
  | some slots => do
    Slot.checkAll m slots operands
    return slots

namespace EncodingError

def message : EncodingError → String
  | wrongOperand m s o => m.name ++ ": " ++ s.expectation ++ ", found " ++ o.text
  | outOfRange m lo hi k =>
    m.name ++ ": Operand out of range (" ++ toString lo.toInt ++ " <= x <= " ++ toString hi.toInt
      ++ "): " ++ toString k.toInt
  | wrongArity m n => m.name ++ ": wrong number of operands (" ++ toString n ++ " found)"
  | unresolved m o => m.name ++ ": unresolved operand " ++ o.text
  | dataOutOfRange w k =>
    "Data value out of range for " ++ toString w ++ "-byte item: " ++ toString k.toInt

end EncodingError

end Avr
