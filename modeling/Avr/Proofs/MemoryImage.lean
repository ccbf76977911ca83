import Mathlib.Data.List.MinMax
import Avr.Output.Image
import Avr.Proofs.SecondPass
import Avr.Proofs.Sorting

namespace Avr

namespace Page

/-- The byte that the page puts at an address. -/
def byteAt? (p : Page) (a : Nat) : Option UInt8 :=
  if p.start ≤ a then p.bytes[a - p.start]? else none

def Covers (p : Page) (a : Nat) : Prop := p.start ≤ a ∧ a < p.stop

/-- No address is covered by both. -/
def Apart (p q : Page) : Prop := ∀ a, ¬ (p.Covers a ∧ q.Covers a)

theorem covers_iff {p : Page} {a : Nat} : p.Covers a ↔ ∃ b, p.byteAt? a = some b := by
  unfold Covers byteAt? stop
  split
  · next h =>
    rw [← Option.isSome_iff_exists]
    simp only [h, isSome_getElem?, true_and]
    omega
  · next h => simp [h]

theorem Apart.symm {p q : Page} (h : p.Apart q) : q.Apart p := fun a ha => h a ha.symm

/-- A page that takes up space covers its own start. -/
theorem covers_start {p : Page} (h : p.bytes ≠ []) : p.Covers p.start := by
  have := List.length_pos_iff.mpr h
  exact ⟨Nat.le_refl _, by unfold stop; omega⟩

theorem covers_last {p : Page} (h : p.bytes ≠ []) : p.Covers (p.stop - 1) := by
  have := List.length_pos_iff.mpr h
  unfold Covers stop
  omega

theorem bytes_ne_nil {p : Page} {a : Nat} (h : p.Covers a) : p.bytes ≠ [] := by
  intro hnil
  unfold Covers stop at h
  simp only [hnil, List.length_nil] at h
  omega

/-- The page that goes on with the bytes of another. -/
def append (p q : Page) : Page := { p with bytes := p.bytes ++ q.bytes }

section

variable {p q : Page} (h : p.stop = q.start)

include h

theorem byteAt_append {a : Nat} {b : UInt8} :
    (p.append q).byteAt? a = some b ↔ p.byteAt? a = some b ∨ q.byteAt? a = some b := by
  unfold stop at h
  change (if p.start ≤ a then (p.bytes ++ q.bytes)[a - p.start]? else none) = some b ↔ _
  unfold byteAt?
  by_cases hp : p.start ≤ a
  · rw [if_pos hp, if_pos hp]
    by_cases hq : q.start ≤ a
    · have hlen : p.bytes.length ≤ a - p.start := by omega
      have hidx : a - p.start - p.bytes.length = a - q.start := by omega
      rw [if_pos hq, List.getElem?_append_right hlen, List.getElem?_eq_none hlen, hidx]
      simp
    · rw [if_neg hq, List.getElem?_append_left (by omega)]
      simp
  · rw [if_neg hp, if_neg hp, if_neg (by omega)]
    simp

theorem covers_append {a : Nat} : (p.append q).Covers a ↔ p.Covers a ∨ q.Covers a := by
  simp only [covers_iff, byteAt_append h, exists_or]

theorem apart_append {r : Page} : (p.append q).Apart r ↔ p.Apart r ∧ q.Apart r := by
  simp only [Apart, covers_append h]
  grind

end

theorem eq_of_byteAt {p q : Page} (hstart : p.start = q.start)
    (h : ∀ a b, p.byteAt? a = some b ↔ q.byteAt? a = some b) : p = q := by
  have hbytes : p.bytes = q.bytes := by
    refine List.ext_getElem? fun i => Option.ext fun b => ?_
    have hi := h (p.start + i) b
    simpa [byteAt?, ← hstart] using hi
  cases p
  cases q
  simp_all

end Page

namespace Section

def stop (s : Section) : Nat := s.origin + s.size

/-- The section as a run of bytes. -/
def page (s : Section) : Page := ⟨s.origin, s.bytes⟩

/-- The byte that the section puts at an address. -/
def byteAt? (s : Section) (a : Nat) : Option UInt8 := s.page.byteAt? a

def Covers (s : Section) (a : Nat) : Prop := s.page.Covers a

/-- A section has a place in the source if and only if it takes up space. -/
theorem location_isSome {s : Section} : s.location?.isSome ↔ s.bytes ≠ [] := by
  simp only [location?, Option.isSome_map, List.find?_isSome, bytes, ne_eq,
    List.flatMap_eq_nil_iff, not_forall]
  grind

end Section

namespace Image

/-- The order in which sections are joined. -/
def sorted (l : Listing) : List (Section × Location) :=
  (occupied l).mergeSort fun a b => a.1.origin ≤ b.1.origin

theorem mem_occupied {l : Listing} {s : Section} :
    (∃ x, (s, x) ∈ occupied l) ↔ s ∈ l.sections ∧ s.bytes ≠ [] := by
  rw [← Section.location_isSome, Option.isSome_iff_exists]
  simp only [occupied, List.mem_filterMap, Option.map_eq_some_iff]
  grind

theorem pairwise_sorted (l : Listing) :
    (sorted l).Pairwise fun a b => a.1.origin ≤ b.1.origin :=
  pairwise_mergeSort_key (·.1.origin) (occupied l)

/-- The same order, as sections are inserted one by one. -/
theorem sorted_eq (l : Listing) :
    ((occupied l).mergeSort fun a b => a.1.origin ≤ b.1.origin) =
      (occupied l).foldr (List.orderedInsert fun a b => decide (a.1.origin ≤ b.1.origin)) [] := by
  let origin (x : Section × Location) : Nat := x.1.origin
  exact mergeSort_eq_foldr (key_trans origin) (key_total origin) (occupied l)

/-- What takes up space in one section alone is one page. -/
theorem pages_of_occupied {l : Listing} {s : Section} {x : Location} (h : occupied l = [(s, x)]) :
    pages l = .ok [s.page] := by
  rw [pages, h, List.mergeSort_singleton]
  rfl

/-- Sections as runs of bytes. -/
def runs (xs : List (Section × Location)) : List Page := xs.map (·.1.page)

/-- What joining leaves: pages with a gap before the next one, which put the same bytes at the same
addresses as the runs that went into them. -/
structure Joins (ps : List Page) (runs : List Page) : Prop where
  gaps : ps.Pairwise fun p q => p.stop < q.start
  filled : ∀ p ∈ ps, p.bytes ≠ []
  bytes : ∀ a b, (∃ p ∈ ps, p.byteAt? a = some b) ↔ ∃ r ∈ runs, r.byteAt? a = some b

section

variable {p q : Page} {ps rs : List Page}

theorem joins_append (h : p.stop = q.start) (hj : Joins ps (p.append q :: rs)) :
    Joins ps (p :: q :: rs) := by
  refine ⟨hj.gaps, hj.filled, ?_⟩
  intro a b
  rw [hj.bytes]
  simp only [List.exists_mem_cons_iff, Page.byteAt_append h, or_assoc]

/-- Two runs that touch do not overlap. -/
theorem apart_append_cons (h : p.stop = q.start) :
    (p.append q :: rs).Pairwise Page.Apart ↔ (p :: q :: rs).Pairwise Page.Apart := by
  have hpq : p.Apart q := by
    intro a ha
    unfold Page.Covers at ha
    omega
  simp only [List.pairwise_cons, Page.apart_append h, List.mem_cons]
  grind

theorem joins_cons (hp : p.bytes ≠ []) (h : ∀ q ∈ ps, p.stop < q.start) (hj : Joins ps rs) :
    Joins (p :: ps) (p :: rs) := by
  refine ⟨List.pairwise_cons.mpr ⟨h, hj.gaps⟩, by simpa using ⟨hp, hj.filled⟩, ?_⟩
  intro a b
  rw [List.exists_mem_cons_iff, List.exists_mem_cons_iff, hj.bytes]

theorem apart_of_gap (h : p.stop < q.start) : p.Apart q := by
  intro a ha
  unfold Page.Covers at ha
  omega

end

/-- Joining a sorted row to a page comes to an end exactly if no two of them share an address. -/
theorem join_cases (page : Page) (xs : List (Section × Location)) (hp : page.bytes ≠ [])
    (hx : ∀ x ∈ xs, x.1.bytes ≠ []) (hs : xs.Pairwise fun a b => a.1.origin ≤ b.1.origin)
    (hfirst : ∀ x ∈ xs, page.start ≤ x.1.origin) :
    (∃ ps, join page xs = .ok ps ∧ (page :: runs xs).Pairwise Page.Apart ∧
        Joins ps (page :: runs xs) ∧ ∀ p ∈ ps, page.start ≤ p.start) ∨
      (∃ x origin, join page xs = .error ⟨x, .resolution (.overlap origin)⟩) ∧
        ¬ (page :: runs xs).Pairwise Page.Apart := by
  induction xs generalizing page with
  | nil => exact .inl ⟨[page], rfl, by simp [runs], ⟨by simp, by simpa, by simp [runs]⟩, by simp⟩
  | cons x xs ih =>
    obtain ⟨s, l⟩ := x
    obtain ⟨hsx, hs⟩ := List.pairwise_cons.mp hs
    have hsb : s.page.bytes ≠ [] := hx (s, l) (by simp)
    have hxs : ∀ x ∈ xs, x.1.bytes ≠ [] := fun x hm => hx x (by simp [hm])
    have hps : page.start ≤ s.page.start := hfirst (s, l) (by simp)
    have hruns : runs ((s, l) :: xs) = s.page :: runs xs := rfl
    rw [hruns, join]
    split
    · -- The section goes on where the page ends.
      next hstop =>
      have hstop : page.stop = s.page.start := hstop
      rcases ih (page.append s.page) (by simp [Page.append, hp]) hxs hs
        (fun x hm => hfirst x (by simp [hm])) with
        ⟨ps, hok, hapart, hjoins, hstart⟩ | ⟨herror, hapart⟩
      · exact .inl ⟨ps, hok, (apart_append_cons hstop).mp hapart, joins_append hstop hjoins, hstart⟩
      · exact .inr ⟨herror, fun h => hapart ((apart_append_cons hstop).mpr h)⟩
    · next hne =>
      split
      · -- Both cover the place where the section starts.
        next hlt =>
        refine .inr ⟨⟨l, s.origin, rfl⟩, ?_⟩
        intro h
        exact (List.pairwise_cons.mp h).1 s.page (by simp) s.origin
          ⟨⟨hps, hlt⟩, Page.covers_start hsb⟩
      · -- The section opens a page of its own.
        next hge =>
        have hgap : page.stop < s.page.start := by
          have : s.page.start = s.origin := rfl
          omega
        rcases ih s.page hsb hxs hs hsx with
          ⟨ps, hok, hapart, hjoins, hstart⟩ | ⟨⟨x, origin, herror⟩, hapart⟩
        · have hok : join ⟨s.origin, s.bytes⟩ xs = .ok ps := hok
          refine .inl ⟨page :: ps, by rw [hok]; rfl, List.pairwise_cons.mpr ⟨?_, hapart⟩, ?_, ?_⟩
          · intro r hr
            refine apart_of_gap (Nat.lt_of_lt_of_le hgap ?_)
            rcases List.mem_cons.mp hr with rfl | hr
            · exact Nat.le_refl _
            · obtain ⟨x, hm, rfl⟩ := List.mem_map.mp hr
              exact hsx x hm
          · exact joins_cons hp (fun q hq => Nat.lt_of_lt_of_le hgap (hstart q hq)) hjoins
          · intro q hq
            rcases List.mem_cons.mp hq with rfl | hq
            · exact Nat.le_refl _
            · exact Nat.le_trans hps (hstart q hq)
        · have herror : join ⟨s.origin, s.bytes⟩ xs = _ := herror
          exact .inr ⟨⟨x, origin, by rw [herror]; rfl⟩,
            fun h => hapart (List.pairwise_cons.mp h).2⟩

end Image

namespace Listing

/-- Two sections cover the same address. -/
def Overlaps (l : Listing) : Prop :=
  ∃ (i j : Nat) (s t : Section) (a : Nat), i < j ∧ l.sections[i]? = some s ∧
    l.sections[j]? = some t ∧ s.Covers a ∧ t.Covers a

theorem not_overlaps {l : Listing} :
    ¬ l.Overlaps ↔ l.sections.Pairwise fun s t => s.page.Apart t.page := by
  rw [List.pairwise_iff_getElem]
  constructor
  · intro h i j hi hj hij a ha
    exact h ⟨i, j, _, _, a, hij, List.getElem?_eq_getElem hi, List.getElem?_eq_getElem hj, ha⟩
  · rintro h ⟨i, j, s, t, a, hij, hs, ht, ha⟩
    obtain ⟨hi, rfl⟩ := List.getElem?_eq_some_iff.mp hs
    obtain ⟨hj, rfl⟩ := List.getElem?_eq_some_iff.mp ht
    exact h i j hi hj hij a ha

end Listing

namespace Image

/-- Sections without bytes are in nobody's way. -/
theorem apart_sorted (l : Listing) : (runs (sorted l)).Pairwise Page.Apart ↔ ¬ l.Overlaps := by
  have hempty : ∀ s : Section, s.location? = none → ∀ a, ¬ s.page.Covers a := by
    intro s hs a ha
    exact absurd (Section.location_isSome.mpr (Page.bytes_ne_nil ha)) (by simp [hs])
  have hperm : (runs (sorted l)).Perm (runs (occupied l)) := (List.mergeSort_perm _ _).map _
  rw [hperm.pairwise_iff Page.Apart.symm, Listing.not_overlaps, runs, occupied,
    List.map_filterMap, List.pairwise_filterMap]
  constructor
  · refine List.Pairwise.imp (fun {s t} h => ?_)
    cases hs : s.location? with
    | none => exact fun a ha => hempty s hs a ha.1
    | some x =>
      cases ht : t.location? with
      | none => exact fun a ha => hempty t ht a ha.2
      | some y => exact h s.page (by simp [hs]) t.page (by simp [ht])
  · refine List.Pairwise.imp (fun {s t} h => ?_)
    intro p hp q hq
    simp only [Option.map_map, Option.map_eq_some_iff, Function.comp_apply] at hp hq
    obtain ⟨_, _, rfl⟩ := hp
    obtain ⟨_, _, rfl⟩ := hq
    exact h

theorem pages_cases (l : Listing) :
    (∃ ps, pages l = .ok ps ∧ ¬ l.Overlaps ∧ Joins ps (runs (sorted l))) ∨
      (∃ x origin, pages l = .error ⟨x, .resolution (.overlap origin)⟩) ∧ l.Overlaps := by
  have hoccupied : ∀ x ∈ sorted l, x.1.bytes ≠ [] := by
    intro x hx
    exact (mem_occupied.mp ⟨x.2, (List.mergeSort_perm _ _).mem_iff.mp hx⟩).2
  have hsorted := pairwise_sorted l
  have hapart := apart_sorted l
  cases hl : sorted l with
  | nil =>
    have hpages : pages l = .ok [] := by
      rw [sorted] at hl
      rw [pages, hl]
    rw [hl] at hapart
    exact .inl ⟨[], hpages, hapart.mp .nil, ⟨.nil, by simp, by simp [runs]⟩⟩
  | cons x xs =>
    obtain ⟨s, place⟩ := x
    have hpages : pages l = join s.page xs := by
      rw [sorted] at hl
      rw [pages, hl]
      rfl
    rw [hl] at hapart hsorted hoccupied
    have hruns : runs ((s, place) :: xs) = s.page :: runs xs := rfl
    rw [hruns] at hapart ⊢
    obtain ⟨hfirst, hrest⟩ := List.pairwise_cons.mp hsorted
    rcases join_cases s.page xs (hoccupied (s, place) (by simp))
      (fun x hx => hoccupied x (by simp [hx])) hrest hfirst with
      ⟨ps, hok, hpair, hjoins, _⟩ | ⟨⟨x, origin, herror⟩, hpair⟩
    · exact .inl ⟨ps, hpages.trans hok, hapart.mp hpair, hjoins⟩
    · refine .inr ⟨⟨x, origin, hpages.trans herror⟩, ?_⟩
      by_contra h
      exact hpair (hapart.mpr h)

theorem not_overlaps_of_pages {l : Listing} {ps : List Page} (h : pages l = .ok ps) :
    ¬ l.Overlaps := by
  rcases pages_cases l with ⟨_, _, hapart, _⟩ | ⟨⟨x, origin, herror⟩, _⟩
  · exact hapart
  · rw [h] at herror
    cases herror

theorem joins_of_pages {l : Listing} {ps : List Page} (h : pages l = .ok ps) :
    Joins ps (runs (sorted l)) := by
  rcases pages_cases l with ⟨qs, hok, _, hjoins⟩ | ⟨⟨x, origin, herror⟩, _⟩
  · rw [h] at hok
    cases hok
    exact hjoins
  · rw [h] at herror
    cases herror

section

variable {p : Page} {ps : List Page} (h : (p :: ps).Pairwise fun p q => p.stop < q.start)

include h

/-- What a page covers is not covered by a later one. -/
theorem not_covers_tail {a : Nat} (ha : a ≤ p.stop) : ∀ q ∈ ps, ¬ q.Covers a := by
  intro q hq hc
  have := (List.pairwise_cons.mp h).1 q hq
  unfold Page.Covers at hc
  omega

theorem byteAt_head {a : Nat} {b : UInt8} (ha : a ≤ p.stop) :
    (∃ q ∈ p :: ps, q.byteAt? a = some b) ↔ p.byteAt? a = some b := by
  simp only [List.exists_mem_cons_iff, or_iff_left_iff_imp]
  rintro ⟨q, hq, hb⟩
  exact (not_covers_tail h ha q hq (Page.covers_iff.mpr ⟨b, hb⟩)).elim

theorem byteAt_tail {a : Nat} {b : UInt8} :
    (∃ q ∈ ps, q.byteAt? a = some b) ↔ (∃ q ∈ p :: ps, q.byteAt? a = some b) ∧ p.stop < a := by
  constructor
  · rintro ⟨q, hq, hb⟩
    refine ⟨⟨q, by simp [hq], hb⟩, ?_⟩
    by_contra ha
    exact not_covers_tail h (Nat.le_of_not_lt ha) q hq (Page.covers_iff.mpr ⟨b, hb⟩)
  · rintro ⟨⟨q, hq, hb⟩, ha⟩
    rcases List.mem_cons.mp hq with rfl | hq
    · have hc : q.Covers a := Page.covers_iff.mpr ⟨b, hb⟩
      exact absurd hc.2 (Nat.not_lt.mpr (Nat.le_of_lt ha))
    · exact ⟨q, hq, hb⟩

/-- The first page starts at the first address that is covered. -/
theorem start_le {a : Nat} {b : UInt8} (ha : ∃ q ∈ p :: ps, q.byteAt? a = some b) :
    p.start ≤ a := by
  by_cases hle : a ≤ p.stop
  · exact (Page.covers_iff.mpr ⟨b, (byteAt_head h hle).mp ha⟩).1
  · have : p.start ≤ p.stop := Nat.le_add_right _ _
    omega

/-- It ends where the first address follows that is not covered. -/
theorem stop_le {q : Page} {qs : List Page} (hq : p.start = q.start)
    (hbytes : ∀ a b, (∃ r ∈ q :: qs, r.byteAt? a = some b) → ∃ r ∈ p :: ps, r.byteAt? a = some b) :
    q.stop ≤ p.stop := by
  by_contra hlt
  have hc : q.Covers p.stop := by
    have : p.start ≤ p.stop := Nat.le_add_right _ _
    unfold Page.Covers
    omega
  obtain ⟨b, hb⟩ := Page.covers_iff.mp hc
  have hp := (byteAt_head h (Nat.le_refl _)).mp (hbytes _ b ⟨q, by simp, hb⟩)
  exact Nat.lt_irrefl _ (Page.covers_iff.mpr ⟨b, hp⟩).2

end

/-- Pages with gaps between them are determined by the bytes that they put to their addresses. -/
theorem eq_of_byteAt {ps qs : List Page} (hps : ps.Pairwise fun p q => p.stop < q.start)
    (hqs : qs.Pairwise fun p q => p.stop < q.start) (hp : ∀ p ∈ ps, p.bytes ≠ [])
    (hq : ∀ q ∈ qs, q.bytes ≠ [])
    (h : ∀ a b, (∃ p ∈ ps, p.byteAt? a = some b) ↔ ∃ q ∈ qs, q.byteAt? a = some b) : ps = qs := by
  have hfirst {r : Page} (rs : List Page) (hr : r.bytes ≠ []) :
      ∃ b, ∃ x ∈ r :: rs, x.byteAt? r.start = some b := by
    obtain ⟨b, hb⟩ := Page.covers_iff.mp (Page.covers_start hr)
    exact ⟨b, r, by simp, hb⟩
  induction ps generalizing qs with
  | nil =>
    cases qs with
    | nil => rfl
    | cons q qs =>
      obtain ⟨b, hb⟩ := hfirst qs (hq q (by simp))
      simpa using (h q.start b).mpr hb
  | cons p ps ih =>
    cases qs with
    | nil =>
      obtain ⟨b, hb⟩ := hfirst ps (hp p (by simp))
      simpa using (h p.start b).mp hb
    | cons q qs =>
      obtain ⟨b, hb⟩ := hfirst qs (hq q (by simp))
      obtain ⟨c, hc⟩ := hfirst ps (hp p (by simp))
      have hstart : p.start = q.start :=
        Nat.le_antisymm (start_le hps ((h _ b).mpr hb)) (start_le hqs ((h _ c).mp hc))
      have hstop : p.stop = q.stop :=
        Nat.le_antisymm (stop_le hqs hstart.symm fun a b => (h a b).mp)
          (stop_le hps hstart fun a b => (h a b).mpr)
      have hhead : p = q := by
        refine Page.eq_of_byteAt hstart fun a b => ?_
        by_cases ha : a ≤ p.stop
        · rw [← byteAt_head hps ha, h, byteAt_head hqs (hstop ▸ ha)]
        · constructor
          · intro hb
            exact absurd (Page.covers_iff.mpr ⟨b, hb⟩).2 (by omega)
          · intro hb
            exact absurd (Page.covers_iff.mpr ⟨b, hb⟩).2 (by omega)
      have htail : ps = qs := by
        refine ih (List.pairwise_cons.mp hps).2 (List.pairwise_cons.mp hqs).2
          (fun r hr => hp r (by simp [hr])) (fun r hr => hq r (by simp [hr])) fun a b => ?_
        rw [byteAt_tail hps, byteAt_tail hqs, h, hstop]
      rw [hhead, htail]

/-- No page starts before the place that was written last. -/
def Advances (cursor : Nat) : List Page → Prop
  | [] => True
  | p :: ps => cursor ≤ p.start ∧ Advances p.stop ps

theorem advances_of_gaps {ps : List Page} (h : ps.Pairwise fun p q => p.stop < q.start)
    {cursor : Nat} (hc : ∀ p ∈ ps, cursor ≤ p.start) : Advances cursor ps := by
  induction ps generalizing cursor with
  | nil => trivial
  | cons p ps ih =>
    obtain ⟨hp, hps⟩ := List.pairwise_cons.mp h
    exact ⟨hc p (by simp), ih hps (fun q hq => Nat.le_of_lt (hp q hq))⟩

/-- Where the last page ends. -/
def stopFrom (cursor : Nat) (ps : List Page) : Nat := ps.foldl (fun _ p => p.stop) cursor

theorem le_stopFrom {cursor : Nat} {ps : List Page} (h : Advances cursor ps) :
    cursor ≤ stopFrom cursor ps ∧ ∀ p ∈ ps, p.stop ≤ stopFrom cursor ps := by
  induction ps generalizing cursor with
  | nil => exact ⟨Nat.le_refl _, by simp⟩
  | cons p ps ih =>
    obtain ⟨hp, hps⟩ := h
    obtain ⟨hle, hall⟩ := ih hps
    have hstop : p.start ≤ p.stop := by unfold Page.stop; omega
    have hcons : stopFrom cursor (p :: ps) = stopFrom p.stop ps := rfl
    rw [hcons]
    refine ⟨by omega, ?_⟩
    intro q hq
    rcases List.mem_cons.mp hq with rfl | hq
    · exact hle
    · exact hall q hq

theorem stopFrom_cases (cursor : Nat) (ps : List Page) :
    stopFrom cursor ps = cursor ∨ ∃ p ∈ ps, p.stop = stopFrom cursor ps := by
  induction ps generalizing cursor with
  | nil => exact .inl rfl
  | cons p ps ih =>
    right
    rcases ih p.stop with h | ⟨q, hq, h⟩
    · exact ⟨p, by simp, h.symm⟩
    · exact ⟨q, by simp [hq], h⟩

/-- The file goes from the cursor to the end of the last page. -/
theorem length_bytes (fill : UInt8) {cursor : Nat} {ps : List Page} (h : Advances cursor ps) :
    cursor + (bytes fill cursor ps).length = stopFrom cursor ps := by
  induction ps generalizing cursor with
  | nil => rfl
  | cons p ps ih =>
    have hlen := ih h.2
    have hp := h.1
    have hcons : stopFrom cursor (p :: ps) = stopFrom p.stop ps := rfl
    rw [hcons, ← hlen]
    simp only [bytes, List.length_append, List.length_replicate, Page.stop]
    omega

/-- The gap before a page, the page, and what follows it. -/
theorem getElem_bytes_cons (fill : UInt8) {cursor a : Nat} {p : Page} (ps : List Page)
    (hp : cursor ≤ p.start) (ha : cursor ≤ a) :
    (bytes fill cursor (p :: ps))[a - cursor]? =
      if a < p.start then some fill
      else if a < p.stop then p.byteAt? a
      else (bytes fill p.stop ps)[a - p.stop]? := by
  have hgap : (List.replicate (p.start - cursor) fill).length = p.start - cursor := by simp
  have hstop : p.stop = p.start + p.bytes.length := rfl
  rw [bytes, List.append_assoc]
  split
  · rw [List.getElem?_append_left (by omega), List.getElem?_replicate, if_pos (by omega)]
  · rw [List.getElem?_append_right (by omega), hgap,
      show a - cursor - (p.start - cursor) = a - p.start by omega]
    split
    · rw [List.getElem?_append_left (by omega), Page.byteAt?, if_pos (by omega)]
    · rw [List.getElem?_append_right (by omega), hstop, Nat.sub_sub]

/-- At each address the file has the byte of the page there, and the fill byte between pages. -/
theorem getElem_bytes (fill : UInt8) {cursor : Nat} {ps : List Page}
    (h : ps.Pairwise fun p q => p.stop < q.start) (hc : ∀ p ∈ ps, cursor ≤ p.start) {a : Nat}
    (ha : cursor ≤ a) :
    (∀ p ∈ ps, ∀ b, p.byteAt? a = some b → (bytes fill cursor ps)[a - cursor]? = some b) ∧
      ((∀ p ∈ ps, ¬ p.Covers a) → a < stopFrom cursor ps →
        (bytes fill cursor ps)[a - cursor]? = some fill) := by
  induction ps generalizing cursor with
  | nil =>
    refine ⟨by simp, ?_⟩
    intro _ hlt
    change a < cursor at hlt
    omega
  | cons p ps ih =>
    obtain ⟨hp, hps⟩ := List.pairwise_cons.mp h
    rw [getElem_bytes_cons fill ps (hc p (by simp)) ha]
    constructor
    · intro q hq b hb
      obtain ⟨hlow, hhigh⟩ := Page.covers_iff.mpr ⟨b, hb⟩
      rcases List.mem_cons.mp hq with rfl | hq
      · rw [if_neg (by omega), if_pos hhigh, hb]
      · have hgap := hp q hq
        have hstart : p.start ≤ p.stop := Nat.le_add_right _ _
        rw [if_neg (by omega), if_neg (by omega)]
        exact (ih hps (fun q hq => Nat.le_of_lt (hp q hq)) (by omega)).1 q hq b hb
    · intro hfree hlt
      split
      · rfl
      · next hge =>
        have hge' : p.stop ≤ a := by
          have := hfree p (by simp)
          unfold Page.Covers at this
          omega
        rw [if_neg (by omega)]
        exact (ih hps (fun q hq => Nat.le_of_lt (hp q hq)) hge').2
          (fun q hq => hfree q (by simp [hq])) hlt

end Image

namespace Listing

/-- The end of the last section that takes up space. -/
def extent (l : Listing) : Nat :=
  ((l.sections.filter fun s => !s.bytes.isEmpty).map Section.stop).foldr max 0

theorem le_extent {l : Listing} {s : Section} (hs : s ∈ l.sections) (hb : s.bytes ≠ []) :
    s.stop ≤ l.extent := by
  have hm : s ∈ l.sections.filter fun s => !s.bytes.isEmpty := by simp [hs, hb]
  exact List.le_max_of_le (List.mem_map_of_mem hm) (Nat.le_refl _)

theorem extent_le {l : Listing} {n : Nat}
    (h : ∀ s ∈ l.sections, s.bytes ≠ [] → s.stop ≤ n) : l.extent ≤ n := by
  refine List.max_le_of_forall_le _ _ (fun x hx => ?_)
  obtain ⟨s, hs, rfl⟩ := List.mem_map.mp hx
  obtain ⟨hs, hb⟩ := List.mem_filter.mp hs
  exact h s hs (by simpa using hb)

end Listing

namespace Image

/-- Pages put the bytes of the sections where the sections put them. -/
theorem Joins.byteAt {l : Listing} {ps : List Page} (h : Joins ps (runs (sorted l))) {a : Nat}
    {b : UInt8} :
    (∃ p ∈ ps, p.byteAt? a = some b) ↔ ∃ s ∈ l.sections, s.byteAt? a = some b := by
  rw [h.bytes]
  constructor
  · rintro ⟨r, hr, hb⟩
    obtain ⟨x, hx, rfl⟩ := List.mem_map.mp hr
    have hx := (List.mergeSort_perm _ _).mem_iff.mp hx
    exact ⟨x.1, (mem_occupied.mp ⟨x.2, hx⟩).1, hb⟩
  · rintro ⟨s, hs, hb⟩
    have hcovers : s.page.Covers a := Page.covers_iff.mpr ⟨b, hb⟩
    obtain ⟨x, hx⟩ := mem_occupied.mpr ⟨hs, Page.bytes_ne_nil hcovers⟩
    exact ⟨s.page, List.mem_map.mpr ⟨(s, x), (List.mergeSort_perm _ _).mem_iff.mpr hx, rfl⟩, hb⟩

theorem Joins.covers {l : Listing} {ps : List Page} (h : Joins ps (runs (sorted l))) {a : Nat} :
    (∃ p ∈ ps, p.Covers a) ↔ ∃ s ∈ l.sections, s.Covers a := by
  have hswap {α : Type} (xs : List α) (f : α → Option UInt8) :
      (∃ x ∈ xs, ∃ b, f x = some b) ↔ ∃ b, ∃ x ∈ xs, f x = some b := by grind
  simp only [Section.Covers, Page.covers_iff, hswap, h.byteAt, Section.byteAt?]

/-- The last page ends where the last section does. -/
theorem Joins.extent {l : Listing} {ps : List Page} (h : Joins ps (runs (sorted l))) :
    stopFrom 0 ps = l.extent := by
  have hadvances : Advances 0 ps := advances_of_gaps h.gaps (by simp)
  obtain ⟨_, hstop⟩ := le_stopFrom hadvances
  apply Nat.le_antisymm
  · rcases stopFrom_cases 0 ps with hzero | ⟨p, hp, hlast⟩
    · omega
    · obtain ⟨s, hs, hc⟩ := h.covers.mp ⟨p, hp, Page.covers_last (h.filled p hp)⟩
      have := Listing.le_extent hs (Page.bytes_ne_nil hc)
      have : p.stop - 1 < s.stop := hc.2
      omega
  · refine Listing.extent_le (fun s hs hb => ?_)
    obtain ⟨p, hp, hc⟩ := h.covers.mpr ⟨s, hs, Page.covers_last (p := s.page) hb⟩
    have := hstop p hp
    have : s.stop - 1 < p.stop := hc.2
    omega

/-- Joining sections fails exactly if two of them cover the same address. If it does not, the pages
rise with a gap between any two, the file never has to go back, it ends with the last section that
takes up space, and it has at each address the byte of the section there, or else the fill byte. -/
theorem image_shows_listing (l : Listing) (fill : UInt8) :
    ((∃ x origin, pages l = .error ⟨x, .resolution (.overlap origin)⟩) ↔ l.Overlaps) ∧
      (¬ l.Overlaps → ∃ ps, pages l = .ok ps ∧
        ps.Pairwise (fun p q => p.stop < q.start) ∧ Advances 0 ps ∧
        (bytes fill 0 ps).length = l.extent ∧
        ∀ a < l.extent,
          (∀ s ∈ l.sections, ∀ b, s.byteAt? a = some b → (bytes fill 0 ps)[a]? = some b) ∧
          ((∀ s ∈ l.sections, ¬ s.Covers a) → (bytes fill 0 ps)[a]? = some fill)) := by
  rcases pages_cases l with ⟨ps, hok, hapart, hjoins⟩ | ⟨herror, hoverlap⟩
  · refine ⟨⟨?_, fun h => absurd h hapart⟩, fun _ => ⟨ps, hok, hjoins.gaps, ?_⟩⟩
    · rintro ⟨x, origin, h⟩
      rw [hok] at h
      cases h
    have hadvances : Advances 0 ps := advances_of_gaps hjoins.gaps (by simp)
    refine ⟨hadvances, ?_, ?_⟩
    · rw [← hjoins.extent, ← length_bytes fill hadvances, Nat.zero_add]
    · intro a ha
      obtain ⟨hbyte, hfill⟩ := getElem_bytes fill hjoins.gaps (by simp) (Nat.zero_le a)
      constructor
      · intro s hs b hb
        obtain ⟨p, hp, hpb⟩ := hjoins.byteAt.mpr ⟨s, hs, hb⟩
        exact hbyte p hp b hpb
      · intro hfree
        refine hfill (fun p hp hc => ?_) (by rwa [hjoins.extent])
        obtain ⟨s, hs, hsc⟩ := hjoins.covers.mp ⟨p, hp, hc⟩
        exact hfree s hs hsc
  · exact ⟨⟨fun _ => hoverlap, fun _ => herror⟩, fun h => absurd hoverlap h⟩

/-- Code that goes on before itself, touches what is there, and leaves a gap behind; last an address
that has a label and no code. -/
def sampleBlocks : List Emission :=
  let here := Location.point "a" 1 1
  let code : Emission := .instruction ⟨here, ⟨.ret, [], none⟩⟩
  [.org 4, code, .org 0, code, .org 2, code, .org 10, code, .org 16, .label ⟨here, "stop"⟩]

def sampleImage : Checked (Listing × List Page) := do
  let listing ← (Layout.run sampleBlocks).resolve false
  return (listing, ← pages listing)

/-- The length of the image, and the ends of the sections. -/
theorem sampleImage_ends :
    sampleImage.toOption.map (fun x => ((bytes 255 0 x.2).length, x.1.sections.map Section.stop)) =
      some (12, [6, 2, 4, 12, 16]) := by
  simp only [sampleImage, pages, sorted_eq]
  decide +kernel

theorem sampleImage_ok :
    ∃ listing ps, (Layout.run sampleBlocks).resolve false = .ok listing ∧ pages listing = .ok ps ∧
      (bytes 255 0 ps).length = 12 ∧ listing.sections.map Section.stop = [6, 2, 4, 12, 16] := by
  obtain ⟨⟨listing, ps⟩, hs, hends⟩ := Option.map_eq_some_iff.mp sampleImage_ends
  have hs : sampleImage = .ok (listing, ps) := Outcome.eq_ok_of_toOption hs
  simp only [sampleImage, Outcome.bind_ok, Outcome.pure_ok] at hs
  obtain ⟨_, hl, _, hp, hpair⟩ := hs
  cases hpair
  simp only [Prod.mk.injEq] at hends
  exact ⟨listing, ps, hl, hp, hends⟩

theorem image_shows_listing_sample :
    ∃ listing, (Layout.run sampleBlocks).resolve false = .ok listing ∧ ¬ listing.Overlaps ∧
      ∃ ps, pages listing = .ok ps ∧
        ps.Pairwise (fun p q => p.stop < q.start) ∧ Advances 0 ps ∧
        (bytes 255 0 ps).length = listing.extent ∧
        ∀ a < listing.extent,
          (∀ s ∈ listing.sections, ∀ b, s.byteAt? a = some b → (bytes 255 0 ps)[a]? = some b) ∧
          ((∀ s ∈ listing.sections, ¬ s.Covers a) → (bytes 255 0 ps)[a]? = some 255) := by
  obtain ⟨listing, ps, hl, hp, _⟩ := sampleImage_ok
  have hapart := not_overlaps_of_pages hp
  exact ⟨listing, hl, hapart, (image_shows_listing listing 255).2 hapart⟩

/-- A section of labels alone has no part in the image, however far out it lies. -/
theorem image_stops_before_labels :
    ∃ listing ps, (Layout.run sampleBlocks).resolve false = .ok listing ∧ ¬ listing.Overlaps ∧
      pages listing = .ok ps ∧
      (bytes 255 0 ps).length ≠ (listing.sections.map Section.stop).foldr max 0 := by
  obtain ⟨listing, ps, hl, hp, hlength, hstops⟩ := sampleImage_ok
  refine ⟨listing, ps, hl, not_overlaps_of_pages hp, hp, ?_⟩
  rw [hlength, hstops]
  decide

end Image

end Avr
