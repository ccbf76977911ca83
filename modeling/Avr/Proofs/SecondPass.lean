import Mathlib.Data.String.Basic
import Avr.Assembly.Listing
import Avr.Proofs.FirstPass
import Avr.Proofs.Outcome

namespace Avr

open Outcome

namespace WordLayout

/-- How many bytes the layout makes. -/
def size : WordLayout → Nat
  | far _ | load _ | store _ => 4
  | _ => 2

theorem length_assemble (layout : WordLayout) (slots : List Slot) (operands : List Operand) :
    (layout.assemble slots operands).bytes.length = layout.size := by
  cases layout <;> rfl

end WordLayout

theorem Mnemonic.size_layout (m : Mnemonic) : m.layout.size = m.size := by
  cases m <;> rfl

theorem Instruction.length_encode {i : Instruction} {e : Encoding} (h : i.encode = .ok e) :
    e.bytes.length = i.size := by
  unfold encode at h
  obtain ⟨slots, _, h⟩ := bind_ok.mp h
  split at h
  · cases h
  · cases h
    rw [WordLayout.length_assemble, Mnemonic.size_layout]
    rfl

namespace Data

theorem length_items (width : DataWidth) (values : List Int32) :
    (values.flatMap (itemBytes width)).length = width.size * values.length := by
  simp [List.length_flatMap, itemBytes, Nat.mul_comm]

theorem length_bytes {d : Data} {values : List Int32} {bs : List UInt8}
    (h : d.bytes values = .ok bs) (hl : values.length = d.values.length) :
    bs.length = d.size := by
  unfold bytes at h
  split at h
  · cases h
  · cases h
    simp only [List.length_append, List.length_replicate, length_items, hl, size, unpadded]

end Data

/-- The line of an entry shows the entry itself. -/
def Entry.IsShownBy : Entry → Content → Prop
  | .label n, .label name => n.value = name
  | .instruction i, .instruction source _ => i.value = source
  | .data d, .data source _ => d.value = source
  | _, _ => False

namespace Line

/-- The line takes the bytes that were reserved for the entry. -/
structure Fills (x : Line) (e : Entry) : Prop where
  length : x.bytes.length = e.size
  shown : e.IsShownBy x.content

/-- The label that the line shows, with the address of the line. -/
def label? (x : Line) : Option (String × Nat) :=
  match x.content with
  | .label name => some (name, x.offset)
  | _ => none

theorem Fills.label {x : Line} {e : Entry} (h : x.Fills e) :
    x.label?.toList = e.name?.toList.map (·, x.offset) := by
  have hs := h.shown
  unfold label?
  cases e <;> cases hc : x.content <;> simp_all [Entry.IsShownBy, Entry.name?]

end Line

namespace Layout

theorem length_resolveInstruction {l : Layout} {linker : Bool} {here : Nat} {i r : Instruction}
    {bs : List UInt8} (h : l.resolveInstruction linker here i = .ok (r, bs)) :
    bs.length = i.size := by
  unfold resolveInstruction at h
  simp only [bind_ok, pure_ok, mapError_ok] at h
  obtain ⟨_, _, operands, _, e, he, h⟩ := h
  cases h
  have hl := Instruction.length_encode he
  exact hl

theorem length_resolveData {l : Layout} {d : Data} {values : List Int32} {bs : List UInt8}
    (h : l.resolveData d = .ok (values, bs)) : bs.length = d.size := by
  unfold resolveData at h
  simp only [bind_ok, pure_ok, mapError_ok] at h
  obtain ⟨vs, hvs, cs, hcs, h⟩ := h
  cases h
  exact Data.length_bytes hcs (mapM_ok hvs).length_eq.symm

theorem line_fills {l : Layout} {linker : Bool} {here : Nat} {e : Entry} {x : Line}
    (h : l.line linker here e = .ok x) : x.offset = here ∧ x.Fills e := by
  cases e with
  | label n =>
    cases h
    exact ⟨rfl, rfl, rfl⟩
  | instruction i =>
    simp only [line] at h
    split at h
    · next hr =>
      cases h
      exact ⟨rfl, length_resolveInstruction hr, rfl⟩
    · cases h
  | data d =>
    simp only [line] at h
    split at h
    · next hr =>
      cases h
      exact ⟨rfl, length_resolveData hr, rfl⟩
    · cases h

/-- Lines follow one another without a gap, and each fills its entry. -/
theorem lines_fill {l : Layout} {linker : Bool} {here : Nat} {es : List Entry} {xs : List Line}
    (h : l.lines linker here es = .ok xs) :
    List.Forall₂ Line.Fills xs es ∧
      ∀ before x after, xs = before ++ x :: after →
        x.offset = here + (before.map (·.bytes.length)).sum := by
  induction es generalizing here xs with
  | nil =>
    cases h
    exact ⟨.nil, by simp⟩
  | cons e es ih =>
    unfold lines at h
    obtain ⟨x, hx, h⟩ := bind_ok.mp h
    obtain ⟨ys, hys, h⟩ := bind_ok.mp h
    cases h
    obtain ⟨ho, hf⟩ := line_fills hx
    obtain ⟨hfs, hos⟩ := ih hys
    refine ⟨.cons hf hfs, ?_⟩
    intro before y after hy
    cases before with
    | nil =>
      cases hy
      simpa using ho
    | cons z before =>
      cases hy
      simp [hos before y after rfl, Nat.add_assoc]

/-- The lines of entries one after the other, the second ones from where the first ones end. -/
theorem lines_append_eq (l : Layout) (linker : Bool) (here : Nat) (es fs : List Entry) :
    l.lines linker here (es ++ fs) = do
      let xs ← l.lines linker here es
      return xs ++ (← l.lines linker (here + Entry.sizes es) fs) := by
  induction es generalizing here with
  | nil =>
    change l.lines linker here fs = l.lines linker here fs >>= fun ys => pure ys
    rw [bind_pure]
  | cons e es ih =>
    have hsizes : Entry.sizes (e :: es) = e.size + Entry.sizes es := by simp [Entry.sizes]
    simp only [List.cons_append, lines]
    cases hx : l.line linker here e with
    | error fault => rfl
    | ok x =>
      rw [hsizes, ← Nat.add_assoc, ← (line_fills hx).2.length]
      change (l.lines linker (here + x.bytes.length) (es ++ fs) >>= fun zs => pure (x :: zs)) =
        (l.lines linker (here + x.bytes.length) es >>= fun xs => pure (x :: xs)) >>= _
      simp only [ih, bind_assoc, pure_bind, List.cons_append]

/-- The label lines stand at the addresses that the first pass gave the labels. -/
theorem labels_lines {l : Layout} {linker : Bool} {here : Nat} {es : List Entry} {xs : List Line}
    (h : l.lines linker here es = .ok xs) :
    xs.filterMap Line.label? = Entry.labelsFrom here es := by
  induction es generalizing here xs with
  | nil =>
    cases h
    rfl
  | cons e es ih =>
    unfold lines at h
    obtain ⟨x, hx, h⟩ := bind_ok.mp h
    obtain ⟨ys, hys, h⟩ := bind_ok.mp h
    cases h
    obtain ⟨ho, hf⟩ := line_fills hx
    have hl := hf.label
    rw [ho] at hl
    rw [hf.length] at hys
    rw [Entry.labelsFrom, ← ih hys, ← hl]
    cases hx : x.label? <;> simp [hx]

end Layout

theorem Line.length_fills {xs : List Line} {es : List Entry} (h : List.Forall₂ Line.Fills xs es) :
    (xs.flatMap Line.bytes).length = Entry.sizes es := by
  induction h with
  | nil => rfl
  | cons hf _ ih =>
    simp only [Entry.sizes] at ih
    simp [Entry.sizes, hf.length, ih]

namespace Section

/-- The section is its block with every entry's bytes in place. -/
structure Fills (s : Section) (b : Block) : Prop where
  origin : s.origin = b.origin
  size : s.size = b.size
  lines : List.Forall₂ Line.Fills s.lines b.entries.toList
  offset : ∀ before x after, s.lines = before ++ x :: after →
    x.offset = s.origin + (before.map (·.bytes.length)).sum

def labels (s : Section) : List (String × Nat) := s.lines.filterMap Line.label?

end Section

namespace Layout

theorem resolveBlock_fills {l : Layout} {linker : Bool} {b : Block} {s : Section}
    (hb : b.Counted) (h : l.resolveBlock linker b = .ok s) :
    s.Fills b ∧ s.labels = b.labels := by
  unfold resolveBlock at h
  obtain ⟨xs, hxs, h⟩ := bind_ok.mp h
  cases h
  obtain ⟨hf, ho⟩ := lines_fill hxs
  exact ⟨⟨rfl, (Line.length_fills hf).trans hb.symm, hf, ho⟩, labels_lines hxs⟩

/-- What a successful second pass consists of. -/
theorem resolve_ok {l : Layout} {linker : Bool} {listing : Listing}
    (h : l.resolve linker = .ok listing) :
    List.Forall₂ (fun b s => l.resolveBlock linker b = .ok s) l.blocks listing.sections ∧
      listing.labels = l.labels.mergeSort labelBefore := by
  unfold resolve at h
  simp only [bind_ok, pure_ok] at h
  obtain ⟨sections, hs, _, _, rfl⟩ := h
  exact ⟨mapM_ok hs, rfl⟩

end Layout

namespace Listing

/-- The labels as their lines show them. -/
def labelLines (l : Listing) : List (String × Nat) := l.sections.flatMap Section.labels

end Listing

namespace Layout

theorem sections_fill {l : Layout} {linker : Bool} {bs : List Block} {ss : List Section}
    (hb : ∀ b ∈ bs, b.Counted)
    (h : List.Forall₂ (fun b s => l.resolveBlock linker b = .ok s) bs ss) :
    List.Forall₂ Section.Fills ss bs ∧ ss.flatMap Section.labels = bs.flatMap Block.labels := by
  induction h with
  | nil => exact ⟨.nil, rfl⟩
  | cons hs _ ih =>
    obtain ⟨hf, hl⟩ := resolveBlock_fills (hb _ (by simp)) hs
    obtain ⟨hfs, hls⟩ := ih (fun b hm => hb b (by simp [hm]))
    exact ⟨.cons hf hfs, by simp [hl, hls]⟩

/-- The labels of the listing are those of the first pass, and of the lines. -/
theorem labels_perm {l : Layout} {linker : Bool} {listing : Listing} (hs : l.Sound)
    (h : l.resolve linker = .ok listing) :
    listing.labels.Perm l.labels ∧ listing.labels.Perm listing.labelLines := by
  obtain ⟨hblocks, hlabels⟩ := resolve_ok h
  have hp : listing.labels.Perm l.labels := hlabels ▸ List.mergeSort_perm _ _
  refine ⟨hp, hp.trans ?_⟩
  rw [hs.placed, Listing.labelLines, (sections_fill hs.counted hblocks).2]
  exact List.reverse_perm _

/-- Lower addresses go first, and at one address lower names. -/
def Before (a b : String × Nat) : Prop := a.2 < b.2 ∨ a.2 = b.2 ∧ a.1 < b.1

theorem labelBefore_iff {a b : String × Nat} :
    labelBefore a b ↔ a.2 < b.2 ∨ a.2 = b.2 ∧ a.1 ≤ b.1 := by
  simp [labelBefore]

theorem labelBefore_trans (a b c : String × Nat) (hab : labelBefore a b) (hbc : labelBefore b c) :
    labelBefore a c := by
  rw [labelBefore_iff] at *
  rcases hab with hab | ⟨he, hab⟩
  · left
    omega
  · rcases hbc with hbc | ⟨hf, hbc⟩
    · left
      omega
    · exact .inr ⟨he.trans hf, hab.trans hbc⟩

theorem labelBefore_total (a b : String × Nat) : labelBefore a b || labelBefore b a := by
  simp only [Bool.or_eq_true, labelBefore_iff]
  rcases Nat.lt_trichotomy a.2 b.2 with h | h | h
  · exact .inl (.inl h)
  · rcases le_total a.1 b.1 with hn | hn
    · exact .inl (.inr ⟨h, hn⟩)
    · exact .inr (.inr ⟨h.symm, hn⟩)
  · exact .inr (.inl h)

/-- Sorting distinct names leaves no two labels at the same place of the order. -/
theorem pairwise_sorted {ls : List (String × Nat)} (h : (ls.map Prod.fst).Nodup) :
    (ls.mergeSort labelBefore).Pairwise Before := by
  have hs := List.pairwise_mergeSort labelBefore_trans labelBefore_total ls
  have hd : ((ls.mergeSort labelBefore).map Prod.fst).Nodup :=
    ((List.mergeSort_perm ls labelBefore).map Prod.fst).nodup_iff.mpr h
  refine (hs.and (List.pairwise_map.mp hd)).imp ?_
  rintro a b ⟨hab, hne⟩
  rcases labelBefore_iff.mp hab with hlt | ⟨he, hle⟩
  · exact .inl hlt
  · exact .inr ⟨he, lt_of_le_of_ne hle hne⟩

/-- Whatever the calls were, the first pass has the stretches that they ask for. The second pass
puts every entry where the first one reserved room for it, and lists every label that was accepted
once, at the address of its own line. -/
theorem resolve_agrees (es : List Emission) (linker : Bool) (listing : Listing)
    (h : (run es).resolve linker = .ok listing) :
    (run es).blocks.map Block.stretch = Stretch.asked [] none es ∧
      List.Forall₂ Section.Fills listing.sections (run es).blocks ∧
      listing.labels.Perm listing.labelLines ∧
      (listing.labels.map Prod.fst).Perm (accepted {} es) ∧
      (listing.labels.map Prod.fst).Nodup ∧
      listing.labels.Pairwise Before := by
  have hsound := sound_run es
  obtain ⟨hblocks, hlabels⟩ := resolve_ok h
  obtain ⟨hperm, hlines⟩ := labels_perm hsound h
  refine ⟨asked_runFrom {} es, (sections_fill hsound.counted hblocks).1, hlines, ?_, ?_, ?_⟩
  · refine (hperm.map Prod.fst).trans ?_
    rw [run, names_runFrom]
    simp
  · exact (hperm.map Prod.fst).nodup_iff.mpr hsound.distinct
  · rw [hlabels]
    exact pairwise_sorted hsound.distinct

/-- An empty block that moves, a jump back to a label that is then refused a second time, a row of
three bytes, and a block of its own for the label behind them. -/
def sampleCalls : List Emission :=
  let here := Location.point "a" 1 1
  [.org 6, .org 8, .label ⟨here, "loop"⟩,
    .instruction ⟨here, ⟨.rjmp, [.label (.plain "loop")], none⟩⟩, .label ⟨here, "loop"⟩,
    .data ⟨here, ⟨.byte, [.const 1, .const 2, .const 3]⟩⟩, .org 32,
    .label ⟨here, "stop"⟩]

theorem resolve_agrees_sample :
    ∃ listing, (run sampleCalls).resolve false = .ok listing ∧
      (run sampleCalls).blocks.map Block.stretch = Stretch.asked [] none sampleCalls ∧
      List.Forall₂ Section.Fills listing.sections (run sampleCalls).blocks ∧
      listing.labels.Perm listing.labelLines ∧
      (listing.labels.map Prod.fst).Perm ["loop", "stop"] ∧
      (listing.labels.map Prod.fst).Nodup ∧
      listing.labels.Pairwise Before :=
  ⟨_, rfl, resolve_agrees sampleCalls false _ rfl⟩

end Layout

end Avr
