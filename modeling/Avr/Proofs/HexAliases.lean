import Avr.Proofs.HexFile

namespace Avr

namespace Page

/-- The same bytes, at addresses that differ by a multiple of 1 MiB. -/
def Aliases (p q : Page) : Prop := p.bytes = q.bytes ∧ p.start % 2 ^ 20 = q.start % 2 ^ 20

/-- The same bytes further up. -/
def shift (n : Nat) (p : Page) : Page := { p with start := p.start + n }

end Page

namespace IntelHex

namespace Record

/-- What is left of a record in its text. -/
def written : Record → Record
  | segment p => segment (p % window)
  | r => r

theorem text_written (r : Record) : r.written.text = r.text := by
  cases r with
  | segment p =>
    have hword : wordBytes (p % window) = wordBytes p := by
      have hhigh : p % 65536 / 256 % 256 = p / 256 % 256 := by omega
      have hlow : p % 65536 % 256 = p % 256 := by omega
      simp only [wordBytes, window, List.cons.injEq, and_true, ← UInt8.toNat_inj,
        UInt8.toNat_ofNat']
      exact ⟨hhigh, hlow⟩
    simp only [written, text, bytes, hword]
  | data a bs => rfl
  | stop => rfl

end Record

/-- The window in which a run of bytes starts. -/
def windowOf (f : Page) : Nat := f.start / window

/-- A page cut into the runs that one record each carries. -/
def cut (width address : Nat) : List UInt8 → List Page
  | [] => []
  | b :: bs =>
    let n := count width address (bs.length + 1)
    ⟨address, (b :: bs).take n⟩ :: cut width (address + n) ((b :: bs).drop n)
termination_by rest => rest.length
decreasing_by
  have := count_pos width address (bs.length + 1)
  simp only [List.length_drop, List.length_cons]
  omega

/-- The runs of all pages. -/
def runs (width : Nat) (ps : List Page) : List Page := ps.flatMap fun p => cut width p.start p.bytes

/-- Runs as records. A segment record goes before a run in another window than the one before. -/
def announce : Nat → List Page → List Record
  | _, [] => []
  | base, f :: fs =>
    (if windowOf f = base then [] else [.segment (windowOf f * 0x1000)]) ++
      .data (f.start % window) f.bytes :: announce (windowOf f) fs

/-- The window that is open after the runs. -/
def windowAfter (base : Nat) (fs : List Page) : Nat := fs.foldl (fun _ f => windowOf f) base

theorem announce_append (base : Nat) (fs gs : List Page) :
    announce base (fs ++ gs) = announce base fs ++ announce (windowAfter base fs) gs := by
  induction fs generalizing base with
  | nil => rfl
  | cons f fs ih =>
    rw [List.cons_append, announce, ih, announce, List.append_assoc, List.cons_append]
    rfl

theorem pageRecords_eq (width base address : Nat) (bs : List UInt8) :
    pageRecords width base address bs =
      (announce base (cut width address bs), windowAfter base (cut width address bs)) := by
  fun_induction pageRecords width base address bs with
  | case1 => simp [cut, announce, windowAfter]
  | case2 base address b bs here opened n records base' hrest ih =>
    rw [hrest] at ih
    obtain ⟨hrecords, hbase⟩ := Prod.mk.inj ih
    rw [cut, announce, hrecords, hbase]
    rfl

/-- The records of an image are those of its runs. -/
theorem records_eq (width base : Nat) (ps : List Page) :
    records width base ps = announce base (runs width ps) ++ [.stop] := by
  induction ps generalizing base with
  | nil => rfl
  | cons p ps ih =>
    rw [records, pageRecords_eq]
    simp only [ih, runs, List.flatMap_cons, announce_append, List.append_assoc]

/-- For each run, whether it lies in another window than the one before. -/
def turns : Nat → List Page → List Bool
  | _, [] => []
  | base, f :: fs => decide (windowOf f ≠ base) :: turns (windowOf f) fs

/-- The address of a run up to 1 MiB: its window up to sixteen, and the address in the window. -/
theorem aliases_iff {f g : Page} :
    f.Aliases g ↔ windowOf f % 16 = windowOf g % 16 ∧ f.start % window = g.start % window ∧
      f.bytes = g.bytes := by
  unfold Page.Aliases windowOf window
  rw [and_comm, ← and_assoc]
  refine and_congr_left fun _ => ?_
  omega

/-- What is written of the runs tells their bytes, their addresses up to 1 MiB, and their turns. -/
theorem written_announce_iff {fs gs : List Page} {base base' : Nat}
    (hbase : base % 16 = base' % 16) :
    (announce base fs).map Record.written = (announce base' gs).map Record.written ↔
      List.Forall₂ Page.Aliases fs gs ∧ turns base fs = turns base' gs := by
  induction fs generalizing gs base base' with
  | nil =>
    cases gs with
    | nil => simp [announce, turns]
    | cons g gs => simp [announce, turns]
  | cons f fs ih =>
    cases gs with
    | nil => simp [announce, turns]
    | cons g gs =>
      have hsegment : windowOf f * 0x1000 % window = windowOf g * 0x1000 % window ↔
          windowOf f % 16 = windowOf g % 16 := by
        unfold window
        omega
      rw [List.forall₂_cons, aliases_iff, turns, turns, List.cons.injEq]
      by_cases hf : windowOf f = base
      · by_cases hg : windowOf g = base'
        · -- Neither leaves its window, so the windows agree as they did before.
          have hw : windowOf f % 16 = windowOf g % 16 := by rw [hf, hg, hbase]
          simp only [announce, if_pos hf, if_pos hg, List.nil_append, List.map_cons, Record.written,
            List.cons.injEq, Record.data.injEq, ih hw]
          simp only [hf, hg, hbase, ne_eq, not_true_eq_false, decide_false, true_and]
          exact and_assoc.symm
        · simp [announce, Record.written, hf, hg]
      · by_cases hg : windowOf g = base'
        · simp [announce, Record.written, hf, hg]
        · simp only [announce, if_neg hf, if_neg hg, List.singleton_append, List.map_cons,
            Record.written, List.cons.injEq, Record.segment.injEq, Record.data.injEq, hsegment]
          by_cases hw : windowOf f % 16 = windowOf g % 16
          · simp only [ih hw, hw, hf, hg, ne_eq, not_false_eq_true, decide_true, true_and]
            exact and_assoc.symm
          · simp only [hw, false_and]

/-- Every run fits a record. -/
theorem fits_cut {width : Nat} (hwidth : 1 ≤ width) (address : Nat) (bs : List UInt8) :
    ∀ f ∈ cut width address bs, (Record.data (f.start % window) f.bytes).Fits width := by
  fun_induction cut width address bs with
  | case1 => simp
  | case2 address b bs n ih =>
    have hlen : (b :: bs).length = bs.length + 1 := rfl
    have hsome : 0 < bs.length + 1 := Nat.succ_pos _
    have hcount : n = share width address (bs.length + 1) := count_eq_share hwidth address hsome
    obtain ⟨hpos, hle, hmost, hwindow⟩ := share_bounds hwidth address hsome
    intro f hf
    rcases List.mem_cons.mp hf with rfl | hf
    · have htake : ((b :: bs).take n).length = n := by
        rw [List.length_take]
        omega
      simp only [Record.Fits, htake]
      omega
    · exact ih f hf

theorem fits_announce {width : Nat} {fs : List Page}
    (h : ∀ f ∈ fs, (Record.data (f.start % window) f.bytes).Fits width) (base : Nat) :
    ∀ r ∈ (announce base fs).map Record.written, r.Fits width := by
  have hsegment (n : Nat) : (Record.segment (n * 0x1000)).written.Fits width := by
    simp only [Record.written, Record.Fits, window]
    omega
  induction fs generalizing base with
  | nil => simp [announce]
  | cons f fs ih =>
    have hf : (Record.data (f.start % window) f.bytes).written.Fits width := h f (by simp)
    have hrest := ih (fun g hg => h g (by simp [hg])) (windowOf f)
    rw [announce]
    split
    · simpa using ⟨hf, by simpa using hrest⟩
    · simpa using ⟨hsegment _, hf, by simpa using hrest⟩

theorem stop_not_mem_announce (base : Nat) (fs : List Page) :
    .stop ∉ (announce base fs).map Record.written := by
  induction fs generalizing base with
  | nil => simp [announce]
  | cons f fs ih =>
    have hrest := ih (windowOf f)
    rw [announce]
    split
    · simpa [Record.written] using hrest
    · simpa [Record.written] using hrest

/-- The records of a file as far as they are written. -/
def contents (width : Nat) (ps : List Page) : List Record :=
  (announce 0 (runs (max width 1) ps)).map Record.written ++ [.stop]

theorem text_eq_contents (width : Nat) (ps : List Page) :
    text width ps = String.join ((contents width ps).map Record.text) := by
  have hstop : [.stop] = [.stop].map Record.written := rfl
  rw [contents, hstop, ← List.map_append, ← records_eq, List.map_map, text]
  exact congrArg String.join (List.map_congr_left fun r _ => r.text_written.symm)

theorem read_text {width : Nat} (hwidth : width ≤ 255) (ps : List Page) :
    read (text width ps) = some (contents width ps) := by
  have hruns : ∀ f ∈ runs (max width 1) ps,
      (Record.data (f.start % window) f.bytes).Fits (max width 1) := by
    intro f hf
    obtain ⟨p, -, hf⟩ := List.mem_flatMap.mp hf
    exact fits_cut (Nat.le_max_right _ _) _ _ f hf
  have hmost : max width 1 ≤ 255 := by omega
  rw [text_eq_contents]
  refine read_join hmost ?_ ?_
  · intro r hr
    rcases List.mem_append.mp hr with hr | hr
    · exact fits_announce hruns 0 r hr
    · obtain rfl := List.mem_singleton.mp hr
      trivial
  · exact endsOnce_append (stop_not_mem_announce 0 _) [.stop]

/-- Two files agree exactly if the runs put the same bytes to addresses that are the same up to
1 MiB, and leave their windows at the same places. -/
theorem text_eq_iff {width : Nat} (hwidth : width ≤ 255) {ps qs : List Page} :
    text width ps = text width qs ↔
      List.Forall₂ Page.Aliases (runs (max width 1) ps) (runs (max width 1) qs) ∧
        turns 0 (runs (max width 1) ps) = turns 0 (runs (max width 1) qs) := by
  rw [← written_announce_iff rfl, ← List.append_left_inj [.stop]]
  constructor
  · intro h
    have hread := read_text hwidth ps
    rw [h, read_text hwidth qs] at hread
    exact (Option.some.inj hread).symm
  · intro h
    rw [text_eq_contents, text_eq_contents]
    exact congrArg (fun rs => String.join (rs.map Record.text)) h

/-- What the pages put to their addresses, in order. -/
def cells (ps : List Page) : List (UInt8 × Nat) := ps.flatMap fun p => p.bytes.zipIdx p.start

theorem cells_cut (width address : Nat) (bs : List UInt8) :
    cells (cut width address bs) = bs.zipIdx address := by
  fun_induction cut width address bs with
  | case1 => rfl
  | case2 address b bs n ih =>
    have hrest : (cut width (address + n) ((b :: bs).drop n)).flatMap
        (fun f => f.bytes.zipIdx f.start) = ((b :: bs).drop n).zipIdx (address + n) := ih
    rw [cells, List.flatMap_cons, hrest, ← zipIdx_eq_take_drop]

theorem cells_runs (width : Nat) (ps : List Page) : cells (runs width ps) = cells ps := by
  simp only [cells, runs, List.flatMap_assoc]
  exact List.flatMap_congr fun p _ => cells_cut width p.start p.bytes

/-- The same byte, at addresses that differ by a multiple of 1 MiB. -/
def CellAliases (x y : UInt8 × Nat) : Prop := x.1 = y.1 ∧ x.2 % 2 ^ 20 = y.2 % 2 ^ 20

theorem zipIdx_aliases (bs : List UInt8) {a b : Nat} (h : a % 2 ^ 20 = b % 2 ^ 20) :
    List.Forall₂ CellAliases (bs.zipIdx a) (bs.zipIdx b) := by
  induction bs generalizing a b with
  | nil => exact .nil
  | cons x bs ih => exact .cons ⟨rfl, h⟩ (ih (by omega))

/-- Runs that are aliases put each byte to addresses that are. -/
theorem cells_aliases {fs gs : List Page} (h : List.Forall₂ Page.Aliases fs gs) :
    List.Forall₂ CellAliases (cells fs) (cells gs) := by
  induction h with
  | nil => exact .nil
  | @cons f g fs gs hfg _ ih =>
    obtain ⟨hbytes, hstart⟩ := hfg
    have hfirst := zipIdx_aliases f.bytes hstart
    rw [cells, cells, List.flatMap_cons, List.flatMap_cons]
    nth_rewrite 2 [hbytes] at hfirst
    exact List.rel_append hfirst ih

/-- Below 1 MiB there are no two addresses to mistake for one another. -/
theorem cells_eq_of_aliases {xs ys : List (UInt8 × Nat)} (h : List.Forall₂ CellAliases xs ys)
    (hx : ∀ x ∈ xs, x.2 < 2 ^ 20) (hy : ∀ y ∈ ys, y.2 < 2 ^ 20) : xs = ys := by
  induction h with
  | nil => rfl
  | @cons x y xs ys hxy _ ih =>
    have hlow : x.2 = y.2 := by
      have := hxy.2
      rwa [Nat.mod_eq_of_lt (hx x (by simp)), Nat.mod_eq_of_lt (hy y (by simp))] at this
    rw [Prod.ext hxy.1 hlow, ih (fun z hz => hx z (by simp [hz])) fun z hz => hy z (by simp [hz])]

theorem lt_of_mem_cells {ps : List Page} {n : Nat} (h : ∀ p ∈ ps, p.stop ≤ n) :
    ∀ x ∈ cells ps, x.2 < n := by
  rintro ⟨b, a⟩ hx
  obtain ⟨p, hp, hb⟩ := mem_flatMap_zipIdx.mp hx
  have hc : p.Covers a := Page.covers_iff.mpr ⟨b, hb⟩
  exact Nat.lt_of_lt_of_le hc.2 (h p hp)

section

variable {width n : Nat} (hwidth : width ∣ n) (hwindow : window ∣ n)

include hwidth hwindow

theorem count_add (address rest : Nat) :
    count width (address + n) rest = count width address rest := by
  obtain ⟨k, rfl⟩ := hwidth
  have hmod : (address + width * k) % window = address % window := by
    rw [Nat.add_mod, Nat.mod_eq_zero_of_dvd hwindow, Nat.add_zero, Nat.mod_mod]
  rcases Nat.eq_zero_or_pos width with rfl | hpos
  · simp
  have hdiv : (address + width * k) / width = address / width + k :=
    Nat.add_mul_div_left _ _ hpos
  have haligned : (address / width + k + 1) * width - (address + width * k) =
      (address / width + 1) * width - address := by
    rw [Nat.add_right_comm, Nat.add_mul, Nat.mul_comm k]
    omega
  simp only [count, hmod, hdiv, haligned]

/-- Where a page is cut does not change when it moves by whole records and windows. -/
theorem cut_add (address : Nat) (bs : List UInt8) :
    cut width (address + n) bs = (cut width address bs).map (.shift n) := by
  fun_induction cut width address bs with
  | case1 => simp [cut]
  | case2 address b bs m ih =>
    have hm : m = count width address (bs.length + 1) := rfl
    rw [cut, count_add hwidth hwindow, ← hm, Nat.add_right_comm, ih, List.map_cons]
    rfl

theorem runs_shift (ps : List Page) :
    runs width (ps.map (.shift n)) = (runs width ps).map (.shift n) := by
  simp only [runs, List.flatMap_map, List.map_flatMap, Page.shift, cut_add hwidth hwindow]

end

theorem windowOf_shift (f : Page) : windowOf (f.shift (2 ^ 20)) = windowOf f + 16 := by
  simp only [windowOf, Page.shift, window]
  omega

theorem turns_shift (fs : List Page) (base : Nat) :
    turns (base + 16) (fs.map (.shift (2 ^ 20))) = turns base fs := by
  induction fs generalizing base with
  | nil => rfl
  | cons f fs ih =>
    simp only [List.map_cons, turns, windowOf_shift, ih, ne_eq, Nat.add_right_cancel_iff]

theorem start_le_of_mem_cut {width address : Nat} {bs : List UInt8} :
    ∀ f ∈ cut width address bs, address ≤ f.start := by
  fun_induction cut width address bs with
  | case1 => simp
  | case2 address b bs n ih =>
    intro f hf
    rcases List.mem_cons.mp hf with rfl | hf
    · exact Nat.le_refl _
    · exact Nat.le_trans (Nat.le_add_right _ _) (ih f hf)

/-- Beyond the first window, an image has the same file as the one 1 MiB further up. -/
theorem text_shift {width : Nat} (hwidth : width ≤ 255) (hdvd : max width 1 ∣ 2 ^ 20)
    {ps : List Page} (hps : ∀ p ∈ ps, window ≤ p.start) :
    text width (ps.map (.shift (2 ^ 20))) = text width ps := by
  rw [text_eq_iff hwidth, runs_shift hdvd (by decide)]
  have hfirst : ∀ f ∈ runs (max width 1) ps, windowOf f ≠ 0 := by
    intro f hf
    obtain ⟨p, hp, hf⟩ := List.mem_flatMap.mp hf
    have hstart := Nat.le_trans (hps p hp) (start_le_of_mem_cut f hf)
    exact Nat.ne_of_gt (Nat.div_pos hstart (by decide))
  constructor
  · refine List.forall₂_map_left_iff.mpr (List.forall₂_same.mpr fun f _ => ⟨rfl, ?_⟩)
    exact Nat.add_mod_right _ _
  · cases hruns : runs (max width 1) ps with
    | nil => rfl
    | cons f fs =>
      have hf : windowOf f ≠ 0 := hfirst f (by simp [hruns])
      rw [List.map_cons, turns, turns, windowOf_shift, turns_shift]
      simp [hf]

/-- Two images share a file exactly if their records carry the same bytes, at addresses that are the
same up to 1 MiB, and leave their windows at the same places; so all their bytes are the same, at
addresses that are the same up to 1 MiB. Images below 1 MiB never share a file. Images beyond the
first window do share it with those 1 MiB further up, if the width of records divides 1 MiB. -/
theorem hex_texts_agree_iff (k l : Listing) (ps qs : List Page) (width : Nat)
    (hps : Image.pages k = .ok ps) (hqs : Image.pages l = .ok qs) (hwidth : width ≤ 255) :
    (text width ps = text width qs ↔
      List.Forall₂ Page.Aliases (runs (max width 1) ps) (runs (max width 1) qs) ∧
        turns 0 (runs (max width 1) ps) = turns 0 (runs (max width 1) qs)) ∧
    (text width ps = text width qs → List.Forall₂ CellAliases (cells ps) (cells qs)) ∧
    ((∀ p ∈ ps, p.stop ≤ 2 ^ 20) → (∀ q ∈ qs, q.stop ≤ 2 ^ 20) →
      text width ps = text width qs → ps = qs) ∧
    (max width 1 ∣ 2 ^ 20 → (∀ p ∈ ps, window ≤ p.start) →
      text width (ps.map (.shift (2 ^ 20))) = text width ps) := by
  have hcells (h : text width ps = text width qs) :
      List.Forall₂ CellAliases (cells ps) (cells qs) := by
    rw [← cells_runs (max width 1) ps, ← cells_runs (max width 1) qs]
    exact cells_aliases ((text_eq_iff hwidth).mp h).1
  refine ⟨text_eq_iff hwidth, hcells, ?_, fun hdvd hbeyond => text_shift hwidth hdvd hbeyond⟩
  intro hp hq h
  have heq := cells_eq_of_aliases (hcells h) (lt_of_mem_cells hp) (lt_of_mem_cells hq)
  have hpj := Image.joins_of_pages hps
  have hqj := Image.joins_of_pages hqs
  refine Image.eq_of_byteAt hpj.gaps hqj.gaps hpj.filled hqj.filled fun a b => ?_
  rw [← mem_flatMap_zipIdx, ← mem_flatMap_zipIdx]
  exact iff_of_eq (congrArg ((b, a) ∈ ·) heq)

/-- One instruction at the given address. -/
def sampleCode (origin : Nat) : List Emission :=
  [.org origin, .instruction ⟨Location.point "a" 1 1, ⟨.ret, [], none⟩⟩]

theorem pages_sampleCode (origin : Nat) :
    ∃ l, (Layout.run (sampleCode origin)).resolve false = .ok l ∧
      Image.pages l = .ok [⟨origin, [0x08, 0x95]⟩] := by
  refine ⟨_, rfl, ?_⟩
  rw [Image.pages_of_occupied rfl]
  rfl

/-- A file that has its code at 64 KiB, and another one that has it 1 MiB above. -/
theorem hex_texts_agree_iff_megabyte :
    ∃ k l ps qs, (Layout.run (sampleCode 0x10000)).resolve false = .ok k ∧
      (Layout.run (sampleCode 0x110000)).resolve false = .ok l ∧
      Image.pages k = .ok ps ∧ Image.pages l = .ok qs ∧ ps ≠ qs ∧ text 16 qs = text 16 ps := by
  obtain ⟨k, hk, hps⟩ := pages_sampleCode 0x10000
  obtain ⟨l, hl, hqs⟩ := pages_sampleCode 0x110000
  obtain ⟨-, -, -, hshift⟩ := hex_texts_agree_iff k l _ _ 16 hps hqs (by decide)
  refine ⟨k, l, _, _, hk, hl, hps, hqs, by simp, ?_⟩
  exact hshift (by decide) (by simp [window])

end IntelHex

end Avr
