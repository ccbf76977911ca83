import Avr.Output.Image

namespace Avr.IntelHex

inductive Record
  | data (address : Nat) (bytes : List UInt8)
  /-- The following addresses count from sixteen times `paragraph`. -/
  | segment (paragraph : Nat)
  | stop

namespace Record

def wordBytes (n : Nat) : List UInt8 := [UInt8.ofNat (n / 256), UInt8.ofNat n]

/-- Length, address and type, then what the record carries. -/
def bytes : Record → List UInt8
  | data a bs => UInt8.ofNat bs.length :: wordBytes a ++ 0 :: bs
  | segment p => [2, 0, 0, 2] ++ wordBytes p
  | stop => [0, 0, 0, 1]

/-- Makes the sum of all bytes of the record zero. -/
def checksum (bs : List UInt8) : UInt8 := bs.foldl (· - ·) 0

def text (r : Record) : String :=
  String.ofList (':' :: (r.bytes ++ [checksum r.bytes]).flatMap Numeral.hexByte) ++ "\n"

end Record

def window : Nat := 0x10000

/-- Bytes of the next data record when `rest` bytes are left at `address`. Never none. -/
def count (width address rest : Nat) : Nat :=
  let aligned := if rest ≤ width then rest else (address / width + 1) * width - address
  max 1 (min aligned (window - address % window))

theorem count_pos (width address rest : Nat) : 0 < count width address rest :=
  Nat.le_max_left ..

/-- The records of one page. `base` is the window that the last segment record opened. -/
def pageRecords (width base address : Nat) : List UInt8 → List Record × Nat
  | [] => ([], base)
  | b :: bs =>
    let here := address / window
    let opened := if here = base then [] else [.segment (here * 0x1000)]
    let n := count width address (bs.length + 1)
    let (records, base) := pageRecords width here (address + n) ((b :: bs).drop n)
    (opened ++ .data (address % window) ((b :: bs).take n) :: records, base)
termination_by rest => rest.length
decreasing_by
  have := count_pos width address (bs.length + 1)
  simp only [List.length_drop, List.length_cons]
  omega

def records (width : Nat) : Nat → List Page → List Record
  | _, [] => [.stop]
  | base, p :: ps =>
    let (rs, base) := pageRecords width base p.start p.bytes
    rs ++ records width base ps

/-- A width of zero is taken as one. -/
def text (width : Nat) (pages : List Page) : String :=
  String.join ((records (max width 1) 0 pages).map Record.text)

end Avr.IntelHex
