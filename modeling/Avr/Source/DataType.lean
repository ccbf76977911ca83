namespace Avr

inductive DataType
  | byte | word | dword
  /-- Address of a RAM cell. -/
  | ptr
  /-- Address of a byte of program memory. -/
  | prgPtr
deriving DecidableEq

namespace DataType

def all : List DataType := [byte, word, dword, ptr, prgPtr]

def name : DataType → String
  | byte => "Byte" | word => "Word" | dword => "Dword" | ptr => "Ptr" | prgPtr => "PrgPtr"

def size : DataType → Nat
  | byte => 1
  | word | ptr | prgPtr => 2
  | dword => 4

def text : DataType → String
  | byte => "byte" | word => "word" | dword => "dword" | ptr => "ptr" | prgPtr => "prgptr"

end DataType

inductive DataWidth
  | byte | word | dword
deriving DecidableEq

namespace DataWidth

def all : List DataWidth := [byte, word, dword]

def name : DataWidth → String
  | byte => "Byte" | word => "Word" | dword => "Dword"

def size : DataWidth → Nat
  | byte => 1 | word => 2 | dword => 4

/-- Rows take a value read with or without a sign. Every word fits a four-byte item. -/
def fits (w : DataWidth) (k : Int32) : Bool :=
  match w with
  | byte => -0x80 ≤ k && k ≤ 0xff
  | word => -0x8000 ≤ k && k ≤ 0xffff
  | dword => true

end DataWidth

end Avr
