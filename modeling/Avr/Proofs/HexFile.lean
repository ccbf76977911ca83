import Mathlib.Data.List.Nodup
import Avr.Output.IntelHex
import Avr.Proofs.MemoryImage

namespace Avr.IntelHex

/-- Digits are in upper case. -/
def digit? (c : Char) : Option Nat :=
  if '0' ≤ c ∧ c ≤ '9' then some (c.toNat - '0'.toNat)
  else if 'A' ≤ c ∧ c ≤ 'F' then some (c.toNat - 'A'.toNat + 10)
  else none

/-- Two digits make a byte. -/
def bytes? : List Char → Option (List UInt8)
  | [] => some []
  | [_] => none
  | high :: low :: rest => do
    let b := UInt8.ofNat (16 * (← digit? high) + (← digit? low))
    return b :: (← bytes? rest)

/-- The lines of a text. The last one is ended too. -/
def lines? : List Char → Option (List (List Char))
  | [] => some []
  | c :: cs =>
    if c = '\n' then (lines? cs).map ([] :: ·)
    else
      match lines? cs with
      | some (line :: rest) => some ((c :: line) :: rest)
      | _ => none

namespace Record

/-- Only data may have an address. -/
def ofParts? (kind address : Nat) (content : List UInt8) : Option Record :=
  match kind, content with
  | 0, bs => some (data address bs)
  | 1, [] => if address = 0 then some stop else none
  | 2, [high, low] => if address = 0 then some (segment (256 * high.toNat + low.toNat)) else none
  | _, _ => none

/-- Length, address, type and content; the last byte only makes the sum of all bytes zero. -/
def ofBytes? : List UInt8 → Option Record
  | length :: high :: low :: kind :: rest =>
    if rest.length = length.toNat + 1 then
      ofParts? kind.toNat (256 * high.toNat + low.toNat) rest.dropLast
    else none
  | _ => none

def ofLine? : List Char → Option Record
  | ':' :: digits => do
    let bs ← bytes? digits
    if (bs.map UInt8.toNat).sum % 256 = 0 then ofBytes? bs else none
  | _ => none

end Record

/-- There is one end record, and it is the last. -/
def endsOnce : List Record → Bool
  | [] => false
  | .stop :: rs => rs.isEmpty
  | _ :: rs => endsOnce rs

def read (text : String) : Option (List Record) := do
  let rs ← (← lines? text.toList).mapM Record.ofLine?
  if endsOnce rs then some rs else none

/-- What the records write, each byte with its address. -/
def writes (base : Nat) : List Record → List (UInt8 × Nat)
  | [] => []
  | .data a bs :: rs => bs.zipIdx (base + a) ++ writes base rs
  | .segment p :: rs => writes (16 * p) rs
  | .stop :: rs => writes base rs

theorem digit_hexDigit {n : Nat} (h : n < 16) : digit? (Numeral.hexDigit n) = some n := by
  revert n
  decide

theorem bytes_hexByte (bs : List UInt8) : bytes? (bs.flatMap Numeral.hexByte) = some bs := by
  induction bs with
  | nil => rfl
  | cons b bs ih =>
    have hb := b.toNat_lt
    have hhigh := digit_hexDigit (show b.toNat / 16 < 16 by omega)
    have hlow := digit_hexDigit (show b.toNat % 16 < 16 by omega)
    have hbyte : UInt8.ofNat (16 * (b.toNat / 16) + b.toNat % 16) = b := by
      rw [Nat.div_add_mod, UInt8.ofNat_toNat]
    simp only [List.flatMap_cons, Numeral.hexByte, List.cons_append, List.nil_append, bytes?, hhigh,
      hlow, ih, Option.bind_eq_bind, Option.bind_some, hbyte]
    rfl

theorem newline_not_mem_hexByte (bs : List UInt8) : '\n' ∉ bs.flatMap Numeral.hexByte := by
  have hdigit {n : Nat} (h : n < 16) : '\n' ≠ Numeral.hexDigit n := by
    intro he
    have := digit_hexDigit h
    rw [← he] at this
    cases this
  intro hm
  obtain ⟨b, -, hb⟩ := List.mem_flatMap.mp hm
  have hlt := b.toNat_lt
  simp only [Numeral.hexByte, List.mem_cons, List.not_mem_nil, or_false] at hb
  rcases hb with hb | hb
  · exact hdigit (by omega) hb
  · exact hdigit (by omega) hb

theorem lines_append {line : List Char} (h : '\n' ∉ line) (rest : List Char) :
    lines? (line ++ '\n' :: rest) = (lines? rest).map (line :: ·) := by
  induction line with
  | nil => simp [lines?]
  | cons c line ih =>
    simp only [List.mem_cons, not_or] at h
    rw [List.cons_append, lines?, if_neg (Ne.symm h.1), ih h.2]
    cases lines? rest <;> rfl

theorem sum_checksum (bs : List UInt8) :
    ((bs ++ [Record.checksum bs]).map UInt8.toNat).sum % 256 = 0 := by
  -- Whatever the count starts from, the sum of the bytes leads back to it.
  have hfold (bs : List UInt8) (start : UInt8) :
      ((bs.map UInt8.toNat).sum + (bs.foldl (· - ·) start).toNat) % 256 = start.toNat := by
    induction bs generalizing start with
    | nil => simp
    | cons b bs ih =>
      have hrest := ih (start - b)
      have hb := b.toNat_lt
      have hstart := start.toNat_lt
      rw [UInt8.toNat_sub] at hrest
      simp only [List.map_cons, List.sum_cons, List.foldl_cons]
      omega
  have h := hfold bs 0
  simpa [Record.checksum] using h

namespace Record

/-- What a record can say: addresses and paragraphs of sixteen bits, data of at most `width` bytes
within one window, and paragraphs at the start of a window. -/
def Fits (width : Nat) : Record → Prop
  | data a bs => 1 ≤ bs.length ∧ bs.length ≤ width ∧ a + bs.length ≤ window
  | segment p => p < window ∧ p % 0x1000 = 0
  | stop => True

theorem ofBytes_append {width : Nat} (hwidth : width ≤ 255) {r : Record} (h : r.Fits width)
    (sum : UInt8) : ofBytes? (r.bytes ++ [sum]) = some r := by
  have hword {n : Nat} (hn : n < window) : 256 * (n / 256 % 256) + n % 256 = n := by
    unfold window at hn
    omega
  cases r with
  | data a bs =>
    obtain ⟨hpos, hlen, ha⟩ := h
    have hlength : bs.length % 256 = bs.length := Nat.mod_eq_of_lt (by omega)
    have haddress := hword (show a < window by omega)
    simp [bytes, wordBytes, ofBytes?, ofParts?, hlength, haddress]
  | segment p =>
    have hp := hword h.1
    simp [bytes, wordBytes, ofBytes?, ofParts?, hp]
  | stop => rfl

/-- The line of a record, without its end. -/
def line (r : Record) : List Char :=
  ':' :: (r.bytes ++ [checksum r.bytes]).flatMap Numeral.hexByte

theorem toList_text (r : Record) : r.text.toList = r.line ++ ['\n'] := by
  simp [text, line]

theorem newline_not_mem_line (r : Record) : '\n' ∉ r.line := by
  simpa [line] using newline_not_mem_hexByte (r.bytes ++ [checksum r.bytes])

theorem ofLine_line {width : Nat} (hwidth : width ≤ 255) {r : Record} (h : r.Fits width) :
    ofLine? r.line = some r := by
  rw [line, ofLine?, bytes_hexByte]
  simp only [Option.bind_eq_bind, Option.bind_some, sum_checksum, if_true]
  exact ofBytes_append hwidth h _

end Record

/-- A text of records is read as these records. -/
theorem lines_text (rs : List Record) :
    lines? (String.join (rs.map Record.text)).toList = some (rs.map Record.line) := by
  induction rs with
  | nil => rfl
  | cons r rs ih =>
    rw [String.toList_join] at ih ⊢
    rw [List.map_cons, List.flatMap_cons, Record.toList_text, List.append_assoc,
      List.singleton_append, lines_append r.newline_not_mem_line, ih]
    rfl

theorem ofLine_lines {width : Nat} (hwidth : width ≤ 255) {rs : List Record}
    (h : ∀ r ∈ rs, r.Fits width) : (rs.map Record.line).mapM Record.ofLine? = some rs := by
  induction rs with
  | nil => rfl
  | cons r rs ih =>
    have hr := Record.ofLine_line hwidth (h r (by simp))
    have hrs := ih (fun r hr => h r (by simp [hr]))
    simp [hr, hrs]

theorem read_join {width : Nat} (hwidth : width ≤ 255) {rs : List Record}
    (h : ∀ r ∈ rs, r.Fits width) (hend : endsOnce rs) :
    read (String.join (rs.map Record.text)) = some rs := by
  simp only [read, lines_text, ofLine_lines hwidth h, Option.bind_eq_bind, Option.bind_some, hend,
    if_true]

/-- The bytes of the next record as the loop counts them: the rest of the page if it fits, else up
to the next multiple of the width, but never beyond the window. -/
def share (width address rest : Nat) : Nat :=
  min (if rest ≤ width then rest else (address / width + 1) * width - address)
    (window - address % window)

section

variable {width : Nat} (hwidth : 1 ≤ width) (address : Nat) {rest : Nat} (hrest : 0 < rest)

include hwidth hrest

/-- Every round of the loop takes some of the rest, at most one record and at most the window. -/
theorem share_bounds :
    0 < share width address rest ∧ share width address rest ≤ rest ∧
      share width address rest ≤ width ∧ address % window + share width address rest ≤ window := by
  have hwindow : address % window < window := Nat.mod_lt _ (by decide)
  have haligned : address < (address / width + 1) * width ∧
      (address / width + 1) * width ≤ address + width := by
    have hsplit := Nat.div_add_mod address width
    have hlt := Nat.mod_lt address (show 0 < width by omega)
    rw [Nat.add_mul, Nat.one_mul, Nat.mul_comm]
    omega
  unfold share
  split
  · omega
  · omega

/-- A loop that always takes some of the rest needs no floor. -/
theorem count_eq_share : count width address rest = share width address rest := by
  have h := (share_bounds hwidth address hrest).1
  exact Nat.max_eq_right h

end

theorem fits_pageRecords {width : Nat} (hwidth : 1 ≤ width) (base address : Nat)
    (bs : List UInt8) (hend : address + bs.length ≤ 2 ^ 20) :
    ∀ r ∈ (pageRecords width base address bs).1, r.Fits width := by
  fun_induction pageRecords width base address bs with
  | case1 => simp
  | case2 base address b bs here opened n records base' hrest ih =>
    have hlen : (b :: bs).length = bs.length + 1 := rfl
    have hsome : 0 < bs.length + 1 := Nat.succ_pos _
    have hcount : n = share width address (bs.length + 1) := count_eq_share hwidth address hsome
    obtain ⟨hpos, hle, hmost, hwindow⟩ := share_bounds hwidth address hsome
    rw [hrest] at ih
    intro r hr
    rcases List.mem_append.mp hr with hopened | hr
    · have hr : r = .segment (here * 0x1000) := by
        revert hopened
        simp only [opened]
        split <;> simp
      have hhere : here < 16 := by
        have : here = address / window := rfl
        unfold window at this
        omega
      subst hr
      unfold Record.Fits window
      omega
    · rcases List.mem_cons.mp hr with rfl | hr
      · have htake : ((b :: bs).take n).length = n := by
          rw [List.length_take]
          omega
        unfold Record.Fits
        omega
      · refine ih ?_ r hr
        rw [List.length_drop]
        omega

/-- Bytes that are cut in two keep their addresses. -/
theorem zipIdx_eq_take_drop (bs : List UInt8) (address n : Nat) :
    bs.zipIdx address = (bs.take n).zipIdx address ++ (bs.drop n).zipIdx (address + n) := by
  conv_lhs => rw [← List.take_append_drop n bs, List.zipIdx_append]
  by_cases hn : n ≤ bs.length
  · rw [List.length_take_of_le hn]
  · simp [List.drop_eq_nil_of_le (Nat.le_of_not_le hn)]

/-- The records of a page write its bytes from its start on, and leave the window open that the next
page counts from. -/
theorem writes_pageRecords (width base address : Nat) (bs : List UInt8) (rs : List Record) :
    writes (base * window) ((pageRecords width base address bs).1 ++ rs) =
      bs.zipIdx address ++ writes ((pageRecords width base address bs).2 * window) rs := by
  fun_induction pageRecords width base address bs with
  | case1 => simp
  | case2 base address b bs here opened n records base' hrest ih =>
    rw [hrest] at ih
    have hopen (rs : List Record) :
        writes (base * window) (opened ++ rs) = writes (here * window) rs := by
      simp only [opened]
      split
      · next hbase => rw [hbase, List.nil_append]
      · have hparagraph : 16 * (here * 0x1000) = here * window := by
          unfold window
          omega
        rw [List.singleton_append, writes, hparagraph]
    have haddress : here * window + address % window = address := by
      rw [Nat.mul_comm]
      exact Nat.div_add_mod address window
    rw [List.append_assoc, hopen, List.cons_append, writes, haddress, ih,
      zipIdx_eq_take_drop (b :: bs) address n, List.append_assoc]

theorem stop_not_mem_pageRecords (width base address : Nat) (bs : List UInt8) :
    .stop ∉ (pageRecords width base address bs).1 := by
  fun_induction pageRecords width base address bs with
  | case1 => simp
  | case2 base address b bs here opened n records base' hrest ih =>
    rw [hrest] at ih
    simp only [opened, List.mem_append, List.mem_cons, reduceCtorEq, false_or, not_or]
    refine ⟨?_, ih⟩
    split <;> simp

theorem endsOnce_append {rs : List Record} (h : .stop ∉ rs) (ss : List Record) :
    endsOnce (rs ++ ss) = endsOnce ss := by
  induction rs with
  | nil => rfl
  | cons r rs ih =>
    simp only [List.mem_cons, not_or] at h
    cases r with
    | stop => exact absurd rfl h.1
    | data a bs => exact ih h.2
    | segment p => exact ih h.2

theorem endsOnce_records (width base : Nat) (ps : List Page) :
    endsOnce (records width base ps) := by
  induction ps generalizing base with
  | nil => rfl
  | cons p ps ih =>
    rw [records, endsOnce_append (stop_not_mem_pageRecords _ _ _ _)]
    exact ih _

theorem fits_records {width : Nat} (hwidth : 1 ≤ width) (base : Nat) {ps : List Page}
    (hend : ∀ p ∈ ps, p.stop ≤ 2 ^ 20) : ∀ r ∈ records width base ps, r.Fits width := by
  induction ps generalizing base with
  | nil => simp [records, Record.Fits]
  | cons p ps ih =>
    intro r hr
    rcases List.mem_append.mp hr with hr | hr
    · exact fits_pageRecords hwidth base p.start p.bytes (hend p (by simp)) r hr
    · exact ih _ (fun q hq => hend q (by simp [hq])) r hr

theorem writes_records (width base : Nat) (ps : List Page) :
    writes (base * window) (records width base ps) =
      ps.flatMap fun p => p.bytes.zipIdx p.start := by
  induction ps generalizing base with
  | nil => simp [records, writes]
  | cons p ps ih => rw [records, writes_pageRecords, ih, List.flatMap_cons]

/-- Pages that lie apart write no address twice. -/
theorem nodup_addresses {ps : List Page} (h : ps.Pairwise fun p q => p.stop < q.start) :
    ((ps.flatMap fun p => p.bytes.zipIdx p.start).map Prod.snd).Nodup := by
  rw [List.map_flatMap, List.nodup_flatMap]
  constructor
  · intro p _
    rw [List.zipIdx_map_snd]
    exact List.nodup_range'
  · refine h.imp ?_
    intro p q hpq a hp hq
    simp only [List.zipIdx_map_snd, List.mem_range'_1] at hp hq
    unfold Page.stop at hpq
    omega

theorem mem_flatMap_zipIdx {ps : List Page} {a : Nat} {b : UInt8} :
    (b, a) ∈ ps.flatMap (fun p => p.bytes.zipIdx p.start) ↔ ∃ p ∈ ps, p.byteAt? a = some b := by
  simp only [List.mem_flatMap, List.mk_mem_zipIdx_iff_le_and_getElem?_sub, Page.byteAt?,
    Option.ite_none_right_eq_some]

/-- A strict reader takes the file, and finds records of at most `width` bytes that lie within one
window each; they write every byte of the pages to its address, no other byte, and no address twice.
Each round of the writing loop takes at least one byte and no more than are left. -/
theorem hex_reads_back_pages (l : Listing) (ps : List Page) (width : Nat)
    (hpages : Image.pages l = .ok ps) (hpos : 1 ≤ width) (hwidth : width ≤ 255)
    (hend : ∀ p ∈ ps, p.stop ≤ 2 ^ 20) :
    (∃ rs, read (text width ps) = some rs ∧
      (∀ a bs, .data a bs ∈ rs → 1 ≤ bs.length ∧ bs.length ≤ width ∧ a + bs.length ≤ window) ∧
      (∀ p, .segment p ∈ rs → 16 * p % window = 0) ∧
      ((writes 0 rs).map Prod.snd).Nodup ∧
      ∀ a b, (b, a) ∈ writes 0 rs ↔ ∃ p ∈ ps, p.byteAt? a = some b) ∧
    ∀ address rest, 0 < rest → count width address rest = share width address rest ∧
      0 < share width address rest ∧ share width address rest ≤ rest := by
  have hgaps : ps.Pairwise fun p q => p.stop < q.start := by
    rcases Image.pages_cases l with ⟨qs, hok, _, hjoins⟩ | ⟨⟨x, origin, herror⟩, _⟩
    · rw [hpages] at hok
      cases hok
      exact hjoins.gaps
    · rw [hpages] at herror
      cases herror
  have hfits := fits_records hpos 0 hend
  have hwrites := writes_records width 0 ps
  rw [Nat.zero_mul] at hwrites
  refine ⟨⟨records width 0 ps, ?_, ?_, ?_, ?_, ?_⟩, ?_⟩
  · rw [text, Nat.max_eq_left hpos]
    exact read_join hwidth hfits (endsOnce_records width 0 ps)
  · intro a bs hm
    exact hfits _ hm
  · intro p hm
    have hp := (hfits _ hm).2
    unfold window
    omega
  · rw [hwrites]
    exact nodup_addresses hgaps
  · intro a b
    rw [hwrites]
    exact mem_flatMap_zipIdx
  · intro address rest hrest
    obtain ⟨hsome, hle, _⟩ := share_bounds hpos address hrest
    exact ⟨count_eq_share hpos address hrest, hsome, hle⟩

/-- Data over the end of a window, and a page in the window that is then open. -/
def sampleRows : List Emission :=
  let here := Location.point "a" 1 1
  let row (values : List Int32) : Emission := .data ⟨here, ⟨.byte, values.map .const⟩⟩
  [.org 0x10010, row [0xee, 0xff], .org 0xfffe, row [0xaa, 0xbb, 0xcc, 0xdd]]

def samplePages : Checked (Listing × List Page) := do
  let listing ← (Layout.run sampleRows).resolve false
  return (listing, ← Image.pages listing)

def sampleText : String :=
  ":02FFFE00AABB9C\n:020000021000EC\n:02000000CCDD55\n:02001000EEFF01\n:00000001FF\n"

theorem samplePages_text :
    samplePages.toOption.map (fun x => (text 16 x.2, x.2.map Page.stop)) =
      some (sampleText, [0x10002, 0x10012]) := by
  simp only [samplePages, Image.pages, Image.sorted_eq]
  decide +kernel

theorem hex_reads_back_pages_sample :
    ∃ listing ps, (Layout.run sampleRows).resolve false = .ok listing ∧
      Image.pages listing = .ok ps ∧ ps.map Page.stop = [0x10002, 0x10012] ∧
      (∃ rs, read sampleText = some rs ∧
        (∀ a bs, .data a bs ∈ rs → 1 ≤ bs.length ∧ bs.length ≤ 16 ∧ a + bs.length ≤ window) ∧
        (∀ p, .segment p ∈ rs → 16 * p % window = 0) ∧
        ((writes 0 rs).map Prod.snd).Nodup ∧
        ∀ a b, (b, a) ∈ writes 0 rs ↔ ∃ p ∈ ps, p.byteAt? a = some b) ∧
      ∀ address rest, 0 < rest → count 16 address rest = share 16 address rest ∧
        0 < share 16 address rest ∧ share 16 address rest ≤ rest := by
  obtain ⟨⟨listing, ps⟩, hs, hends⟩ := Option.map_eq_some_iff.mp samplePages_text
  have hs : samplePages = .ok (listing, ps) := Outcome.eq_ok_of_toOption hs
  simp only [samplePages, Outcome.bind_ok, Outcome.pure_ok] at hs
  obtain ⟨_, hl, _, hp, hpair⟩ := hs
  cases hpair
  obtain ⟨htext, hstops⟩ := Prod.mk.inj hends
  have hend : ∀ p ∈ ps, p.stop ≤ 2 ^ 20 := by
    intro p hm
    have hstop := List.mem_map_of_mem (f := Page.stop) hm
    rw [hstops] at hstop
    revert hstop
    generalize p.stop = n
    intro hn
    rcases List.mem_pair.mp hn with rfl | rfl <;> decide
  rw [← htext]
  exact ⟨listing, ps, hl, hp, hstops,
    hex_reads_back_pages listing ps 16 hp (by decide) (by decide) hend⟩

end Avr.IntelHex
