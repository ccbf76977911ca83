namespace Avr

inductive Format
  | binary | hex | asm | gcc | map
deriving DecidableEq

namespace Format

/-- In the order in which outputs are produced. -/
def all : List Format := [binary, hex, asm, gcc, map]

def name : Format → String
  | binary => "bin" | hex => "hex" | asm => "asm" | gcc => "gcc" | map => "map"

def ofName? (s : String) : Option Format := all.find? (·.name = s)

def fileExtension : Format → String
  | binary => "bin" | hex => "hex" | asm => "asm" | gcc => "S" | map => "map"

/-- The bit of this format in a set of formats. -/
def flag : Format → Nat
  | binary => 0x01 | hex => 0x02 | asm => 0x04 | gcc => 0x08 | map => 0x10

/-- Only the GNU assembler's text still goes through a linker. -/
def linksExternals : Format → Bool
  | gcc => true
  | _ => false

end Format

structure OutputOptions where
  /-- Fills the gaps of an image. -/
  fill : UInt8 := 0
  /-- Most data bytes of an Intel HEX record. -/
  hexWidth : Nat := 16

end Avr
