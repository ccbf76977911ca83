import Avr.Assembly.Listing

namespace Avr

structure Page where
  start : Nat
  bytes : List UInt8

namespace Page

def stop (p : Page) : Nat := p.start + p.bytes.length

end Page

namespace Image

/-- The sections that take up space. -/
def occupied (l : Listing) : List (Section × Location) :=
  l.sections.filterMap fun s => s.location?.map (s, ·)

/-- Joins sections to the page that they continue. -/
def join (page : Page) : List (Section × Location) → Checked (List Page)
  | [] => .ok [page]
  | (s, location) :: rest =>
    if page.stop = s.origin then join { page with bytes := page.bytes ++ s.bytes } rest
    else if s.origin < page.stop then .error ⟨location, .resolution (.overlap s.origin)⟩
    else do return page :: (← join ⟨s.origin, s.bytes⟩ rest)

def pages (l : Listing) : Checked (List Page) :=
  match (occupied l).mergeSort fun a b => a.1.origin ≤ b.1.origin with
  | [] => .ok []
  | (s, _) :: rest => join ⟨s.origin, s.bytes⟩ rest

/-- The bytes from `cursor` on, with `fill` in the gaps. -/
def bytes (fill : UInt8) (cursor : Nat) : List Page → List UInt8
  | [] => []
  | p :: ps => List.replicate (p.start - cursor) fill ++ p.bytes ++ bytes fill p.stop ps

end Image

end Avr
