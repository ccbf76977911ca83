namespace Avr

/-- Addresses and sizes are words of 32 bits. A sum or a product that is too large for one loses its
upper bits. -/
def wrap32 (n : Nat) : Nat := n % UInt32.size

theorem wrap32_lt (n : Nat) : wrap32 n < UInt32.size := Nat.mod_lt _ (by decide)

theorem wrap32_of_lt {n : Nat} (h : n < UInt32.size) : wrap32 n = n := Nat.mod_eq_of_lt h

@[simp] theorem wrap32_add_wrap32 (m n : Nat) : wrap32 (m + wrap32 n) = wrap32 (m + n) :=
  Nat.add_mod_mod ..

@[simp] theorem wrap32_wrap32_add (m n : Nat) : wrap32 (wrap32 m + n) = wrap32 (m + n) :=
  Nat.mod_add_mod ..

structure Interrupt where
  name : String
  /-- In words from the start of program memory. -/
  offset : Nat
deriving DecidableEq

structure RegisterBit where
  name : String
  number : Nat
deriving DecidableEq

structure IoRegister where
  name : String
  address : Nat
  size : Nat := 1
  bits : List RegisterBit := []
deriving DecidableEq

structure Device where
  name : String
  flashSize : Nat
  ramStart : Nat
  ramSize : Nat
  eepromSize : Nat := 0
  interrupts : List Interrupt
  registers : List IoRegister
deriving DecidableEq

namespace IoRegister

def bit? (r : IoRegister) (name : String) : Option Nat :=
  (r.bits.find? (·.name = name)).map RegisterBit.number

end IoRegister

/-- Where a port name leads. The half of a wide register is no register of its own. -/
structure IoAddress where
  address : Nat
  size : Nat
  register : Option IoRegister
deriving DecidableEq

namespace Device

/-- Last address that `in` and `out` reach. -/
def ioEnd : Nat := 0x3f

/-- Last address that single-bit instructions reach. -/
def lowIoEnd : Nat := 0x1f

def statusRegister : String := "SREG"

def ramEnd? (d : Device) : Option Nat :=
  let last := d.ramStart + (d.ramSize - 1)
  if 0 < d.ramSize ∧ last < UInt32.size then some last else none

def register? (d : Device) (name : String) : Option IoRegister :=
  d.registers.find? (·.name = name)

/-- The name of a wide register followed by `H` or `L` is one of its bytes. -/
def half? (d : Device) (name : String) : Option IoAddress := do
  let offset ← match name.toList.getLast? with
    | some 'H' => some 1
    | some 'L' => some 0
    | _ => none
  let r ← d.register? (String.ofList name.toList.dropLast)
  if 1 < r.size then some ⟨wrap32 (r.address + offset), 1, none⟩ else none

def ioAddress? (d : Device) (name : String) : Option IoAddress :=
  match d.register? name with
  | some r => some ⟨r.address, r.size, some r⟩
  | none => d.half? name

def hasPort (d : Device) (letter : Char) : Bool :=
  (d.register? ("PORT" ++ String.singleton letter)).isSome

/-- The first register that has a bit of this name. -/
def registerWithBit? (d : Device) (bit : String) : Option (IoRegister × Nat) :=
  d.registers.findSome? fun r => (r.bit? bit).map (r, ·)

def interrupt? (d : Device) (name : String) : Option Interrupt :=
  d.interrupts.find? (·.name = name)

/-- Bytes from vector `i` to the next one. The last vector takes two words where one cannot reach
all of program memory. -/
def vectorSlotSize (d : Device) (i : Nat) : Nat :=
  let words :=
    match d.interrupts[i]?, d.interrupts[i + 1]? with
    | some this, some next => next.offset - this.offset
    | _, _ => if d.flashSize > 8192 then 2 else 1
  wrap32 (2 * max words 1)

end Device

end Avr
