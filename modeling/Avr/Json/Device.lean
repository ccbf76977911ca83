import Avr.Device
import Avr.Json.Decode

namespace Avr

open Json

namespace Interrupt

def ofJson? (j : Json) : Option Interrupt := do
  let [name, offset] ← j.fields? ["name", "offset"] | none
  return ⟨← required str? name, ← required word? offset⟩

end Interrupt

namespace RegisterBit

def ofJson? (j : Json) : Option RegisterBit := do
  let [name, number] ← j.fields? ["name", "number"] | none
  return ⟨← required str? name, ← required byte? number⟩

end RegisterBit

namespace IoRegister

def ofJson? (j : Json) : Option IoRegister := do
  let [name, address, size, bits] ← j.fields? ["name", "address", "size", "bits"] | none
  return {
    name := ← required str? name
    address := ← required word? address
    size := ← defaulted 1 word? size
    bits := ← defaulted [] (list? RegisterBit.ofJson?) bits }

end IoRegister

namespace Device

def ofJson? (j : Json) : Option Device := do
  let [name, flashSize, ramStart, ramSize, eepromSize, interrupts, registers] ← j.fields?
    ["name", "flash_size", "ram_start", "ram_size", "eeprom_size", "interrupts", "registers"] | none
  return {
    name := ← required str? name
    flashSize := ← required word? flashSize
    ramStart := ← required word? ramStart
    ramSize := ← required word? ramSize
    eepromSize := ← defaulted 0 word? eepromSize
    interrupts := ← required (list? Interrupt.ofJson?) interrupts
    registers := ← required (list? IoRegister.ofJson?) registers }

end Device

end Avr
