import Avr.Proofs.MemoryImage

namespace Avr

namespace Outcome

/-- Both come out well, with results that are related, or both fail alike. -/
inductive Agree (R : α → β → Prop) : Except ε α → Except ε β → Prop
  | ok {a : α} {b : β} (h : R a b) : Agree R (.ok a) (.ok b)
  | error (e : ε) : Agree R (.error e) (.error e)

/-- One computation that goes on in two ways. -/
theorem agree_bind {R : β → γ → Prop} {x : Except ε α} {f : α → Except ε β} {g : α → Except ε γ}
    (h : ∀ a, x = .ok a → Agree R (f a) (g a)) : Agree R (x >>= f) (x >>= g) := by
  cases x with
  | error e => exact .error e
  | ok a => exact h a rfl

theorem Agree.bind {R : α → β → Prop} {S : γ → δ → Prop} {x : Except ε α} {y : Except ε β}
    {f : α → Except ε γ} {g : β → Except ε δ} (h : Agree R x y)
    (hfg : ∀ a b, R a b → Agree S (f a) (g b)) : Agree S (x >>= f) (y >>= g) := by
  cases h with
  | ok h => exact hfg _ _ h
  | error e => exact .error e

section Agree

variable {R : α → β → Prop} {x : Except ε α} {y : Except ε β}

theorem Agree.ok_iff (h : Agree R x y) : (∃ b, y = .ok b) ↔ ∃ a, x = .ok a := by
  cases h <;> simp

theorem Agree.error_iff (h : Agree R x y) {e : ε} : y = .error e ↔ x = .error e := by
  cases h <;> simp

theorem Agree.of_ok (h : Agree R x y) {a : α} {b : β} (hx : x = .ok a) (hy : y = .ok b) :
    R a b := by
  subst hx hy
  cases h with
  | ok h => exact h

end Agree

end Outcome

open Outcome

namespace Block

/-- Two blocks as one. -/
def join (b c : Block) : Block := ⟨b.origin, b.size + c.size, b.entries ++ c.entries⟩

/-- The same blocks, one of them cut in two, or an empty one behind them. -/
inductive Cut : List Block → List Block → Prop
  | same (bs : List Block) : Cut bs bs
  | idle (bs : List Block) {b : Block} (h : b.entries = #[]) : Cut bs (bs ++ [b])
  | apart (before after : List Block) {b c : Block} (h : c.origin = b.stop) :
      Cut (before ++ b.join c :: after) (before ++ b :: c :: after)

theorem join_push (b c : Block) (e : Entry) : (b.join c).push e = b.join (c.push e) := by
  simp [join, push, Nat.add_assoc]

theorem join_empty (b : Block) (origin : Nat) : b.join { origin } = b := by
  simp [join]

theorem stop_join {b c : Block} (h : c.origin = b.stop) : (b.join c).stop = c.stop := by
  simp [join, stop, h, Nat.add_assoc]

/-- A block without entries is known by its origin. -/
theorem Counted.eq_of_empty {c : Block} (hc : c.Counted) (h : c.entries = #[]) :
    c = { origin := c.origin } := by
  have hsize : c.size = 0 := by simpa [Counted, h, Entry.sizes] using hc
  cases c
  simp_all

end Block

namespace Layout

/-- Two layouts that differ in where a block is cut. Either the last block was cut and the second
part goes on to grow, or both parts are closed. -/
inductive Cut : Layout → Layout → Prop
  | same (l : Layout) : Cut l l
  | opened {l : Layout} (h : l.current = none) : Cut l { l with current := some {} }
  | growing {l : Layout} {b c : Block} (h : l.current = some (b.join c)) (hb : b.entries ≠ #[])
      (hc : c.Counted) (horigin : c.origin = b.stop) :
      Cut l { l with closed := l.closed.push b, current := some c }
  | closed {l : Layout} {before after : Array Block} {b c : Block}
      (h : l.closed = before ++ #[b.join c] ++ after) (horigin : c.origin = b.stop) :
      Cut l { l with closed := before ++ #[b, c] ++ after }

/-- The block that is closed when the next one is opened. -/
def retired (l : Layout) : Array Block :=
  match l.current with
  | some b => if b.entries.isEmpty then #[] else #[b]
  | none => #[]

namespace Cut

variable {l m : Layout}

theorem labels (h : Cut l m) : m.labels = l.labels := by
  cases h <;> rfl

theorem limits (h : Cut l m) : m.limits = l.limits := by
  cases h <;> rfl

theorem cursor (h : Cut l m) : m.cursor = l.cursor := by
  cases h with
  | same => rfl
  | opened h => simp [Layout.cursor, h, Block.stop]
  | growing h _ _ horigin => simp [Layout.cursor, h, Block.stop_join horigin]
  | closed => rfl

theorem blocks (h : Cut l m) : Block.Cut l.blocks m.blocks := by
  cases h with
  | same => exact .same _
  | opened h =>
    have hcut := Block.Cut.idle (b := {}) l.closed.toList rfl
    simpa [Layout.blocks, h] using hcut
  | @growing b c h _ _ horigin =>
    have hcut := Block.Cut.apart l.closed.toList [] horigin
    simpa [Layout.blocks, h] using hcut
  | @closed before after b c h horigin =>
    have hcut := Block.Cut.apart before.toList (after.toList ++ l.current.toList) horigin
    simpa [Layout.blocks, h] using hcut

theorem withLabels (h : Cut l m) (labels : List (String × Nat)) :
    Cut { l with labels } { m with labels } := by
  cases h with
  | same => exact .same _
  | opened h => exact .opened h
  | growing h hb hc horigin => exact .growing h hb hc horigin
  | closed h horigin => exact .closed h horigin

theorem withLimits (h : Cut l m) (limits : Array SizeLimit) :
    Cut { l with limits } { m with limits } := by
  cases h with
  | same => exact .same _
  | opened h => exact .opened h
  | growing h hb hc horigin => exact .growing h hb hc horigin
  | closed h horigin => exact .closed h horigin

theorem push (h : Cut l m) (e : Entry) : Cut (l.push e) (m.push e) := by
  cases h with
  | same => exact .same _
  | opened h =>
    have heq : { l with current := some {} }.push e = l.push e := by simp [Layout.push, h]
    rw [heq]
    exact .same _
  | @growing b c h hb hc horigin =>
    have hcurrent : (l.push e).current = some (b.join (c.push e)) := by
      simp [Layout.push, h, Block.join_push]
    exact .growing hcurrent hb (Block.counted_push hc e) horigin
  | closed h horigin => exact .closed h horigin

/-- A part that is empty moves away, and leaves the block as it was before it was cut. -/
theorem org (h : Cut l m) (origin : Nat) : Cut (l.org origin) (m.org origin) := by
  cases h with
  | same => exact .same _
  | opened h =>
    have heq : { l with current := some {} }.org origin = l.org origin := by simp [Layout.org, h]
    rw [heq]
    exact .same _
  | @growing b c h hb hc horigin =>
    have hl : l.org origin =
        { l with closed := l.closed.push (b.join c), current := some { origin } } := by
      simp [Layout.org, h, Block.join, hb]
    by_cases he : c.entries = #[]
    · have hjoin : b.join c = b := by rw [hc.eq_of_empty he, Block.join_empty]
      have hm : { l with closed := l.closed.push b, current := some c }.org origin =
          l.org origin := by
        rw [hl, hjoin, hc.eq_of_empty he]
        simp [Layout.org]
      rw [hm]
      exact .same _
    · have hm : { l with closed := l.closed.push b, current := some c }.org origin =
          { l.org origin with closed := l.closed ++ #[b, c] ++ #[] } := by
        have hpush : (l.closed.push b).push c = l.closed ++ #[b, c] := by
          rw [Array.push_eq_append, Array.push_eq_append, Array.append_assoc]
          rfl
        rw [hl]
        simp [Layout.org, he, hpush]
      rw [hm]
      exact .closed (by rw [hl]; simp) horigin
  | @closed before after b c h horigin =>
    -- Both have the same last block, so both close it or both move it.
    have hm (blocks : Array Block) : { l with closed := blocks }.org origin =
        { l.org origin with closed := blocks ++ l.retired } := by
      cases hd : l.current with
      | none => simp [Layout.org, retired, hd]
      | some d =>
        by_cases he : d.entries = #[]
        · simp [Layout.org, retired, hd, he]
        · simp [Layout.org, retired, hd, he]
    have hl : (l.org origin).closed = l.closed ++ l.retired := congrArg Layout.closed (hm l.closed)
    rw [hm (before ++ #[b, c] ++ after), Array.append_assoc]
    refine .closed ?_ horigin
    rw [hl, h, Array.append_assoc]

theorem attempt (h : Cut l m) (e : Emission) : Cut (l.attempt e) (m.attempt e) := by
  cases e with
  | org origin => exact h.org origin
  | label name =>
    simp only [Layout.attempt, apply, label, h.labels, h.cursor]
    split
    · next hdefined =>
      split at hdefined
      · cases hdefined
      · next hnew =>
        cases hdefined
        rw [if_neg hnew]
        exact (h.push _).withLabels _
    · next hdefined =>
      split at hdefined
      · next hold =>
        rw [if_pos hold]
        exact h
      · cases hdefined
  | instruction i => exact h.push _
  | data d => exact h.push _
  | limit s =>
    have hcut := h.withLimits (l.limits.push s)
    simpa [Layout.attempt, apply, limit, h.limits] using hcut
  | declare symbol linkage => exact h

theorem runFrom (h : Cut l m) (es : List Emission) : Cut (l.runFrom es) (m.runFrom es) := by
  induction es generalizing l m with
  | nil => exact h
  | cons e es ih => exact ih (h.attempt e)

end Cut

/-- Going on at the address that is reached cuts the last block, if that has entries. -/
theorem cut_org {l : Layout} (hl : l.Sound) : Cut l (l.org l.cursor) := by
  cases hb : l.current with
  | none =>
    have horg : l.org l.cursor = { l with current := some {} } := by simp [org, cursor, hb]
    rw [horg]
    exact .opened hb
  | some b =>
    have hcounted : b.Counted := hl.counted b (by simp [blocks, hb])
    by_cases he : b.entries = #[]
    · have hstop : { b with origin := b.stop } = b := by
        rw [hcounted.eq_of_empty he]
        rfl
      have horg : l.org l.cursor = { l with current := some { b with origin := b.stop } } := by
        simp [org, cursor, hb, he]
      rw [horg, hstop, ← hb]
      exact .same l
    · have horg : l.org l.cursor =
          { l with closed := l.closed.push b, current := some { origin := b.stop } } := by
        simp [org, cursor, hb, he]
      rw [horg]
      exact .growing (by rw [hb, Block.join_empty]) he (by simp [Block.Counted, Entry.sizes]) rfl

section

variable {l m : Layout} (h : m.labels = l.labels)

include h

theorem find_congr : m.find? = l.find? := by
  funext r
  rw [find?, find?, h]

theorem resolveOperands_congr (linker : Bool) (here : Nat) (ss : List Slot) (os : List Operand) :
    m.resolveOperands linker here ss os = l.resolveOperands linker here ss os := by
  have hone (s : Slot) (o : Operand) :
      m.resolveOperand linker here s o = l.resolveOperand linker here s o := by
    cases o <;> simp only [resolveOperand, find_congr h]
  fun_induction resolveOperands m linker here ss os with
  | case1 s ss o os ih => simp only [resolveOperands, hone, ih]
  | case2 ss os hempty => rw [resolveOperands]; exact hempty

/-- What is made of an entry depends on the addresses of labels and on nothing else. -/
theorem line_congr (linker : Bool) (here : Nat) (e : Entry) :
    m.line linker here e = l.line linker here e := by
  cases e with
  | label n => rfl
  | instruction i =>
    simp only [line, resolveInstruction, resolveOperands_congr h]
  | data d =>
    simp only [line, resolveData, find_congr h]

theorem lines_congr (linker : Bool) (here : Nat) (es : List Entry) :
    m.lines linker here es = l.lines linker here es := by
  induction es generalizing here with
  | nil => rfl
  | cons e es ih => simp only [lines, line_congr h, ih]

theorem resolveBlock_congr (linker : Bool) : m.resolveBlock linker = l.resolveBlock linker := by
  funext b
  rw [resolveBlock, resolveBlock, lines_congr h]

theorem checkLimit_congr : m.checkLimit = l.checkLimit := by
  funext s
  simp only [checkLimit, h]

end

end Layout

namespace Section

/-- Two sections as one. -/
def join (s t : Section) : Section := ⟨s.origin, s.lines ++ t.lines⟩

/-- The same sections, one of them cut in two, or one without lines behind them. -/
inductive Cut : List Section → List Section → Prop
  | same (ss : List Section) : Cut ss ss
  | idle (ss : List Section) {s : Section} (h : s.lines = []) : Cut ss (ss ++ [s])
  | apart (before after : List Section) {s t : Section} (h : t.origin = s.stop) :
      Cut (before ++ s.join t :: after) (before ++ s :: t :: after)

theorem page_join (s t : Section) : (s.join t).page = s.page.append t.page := by
  simp [join, page, bytes, Page.append]

end Section

/-- The same listing, up to a section that is cut. -/
structure Listing.Cut (x y : Listing) : Prop where
  sections : Section.Cut x.sections y.sections
  labels : y.labels = x.labels

namespace Layout

variable {l : Layout} {linker : Bool}

theorem resolveBlock_join {b c : Block} (hb : b.Counted) (h : c.origin = b.stop) :
    l.resolveBlock linker (b.join c) = do
      let s ← l.resolveBlock linker b
      return s.join (← l.resolveBlock linker c) := by
  have hstart : b.origin + Entry.sizes b.entries.toList = c.origin := by
    rw [h, Block.stop, show b.size = _ from hb]
  simp only [resolveBlock, Block.join, Array.toList_append, lines_append_eq, hstart, bind_assoc,
    pure_bind]
  rfl

/-- The second pass makes of blocks that are cut sections that are cut, or fails at the same
entry. -/
theorem agree_resolveBlocks {bs cs : List Block} (h : Block.Cut bs cs) (hcs : ∀ c ∈ cs, c.Counted) :
    Agree Section.Cut (bs.mapM (l.resolveBlock linker)) (cs.mapM (l.resolveBlock linker)) := by
  cases h with
  | same =>
    rw [← bind_pure (bs.mapM _)]
    exact agree_bind fun ss _ => .ok (.same ss)
  | @idle _ b h =>
    have hb : l.resolveBlock linker b = .ok ⟨b.origin, []⟩ := by
      rw [resolveBlock, h]
      rfl
    rw [← bind_pure (bs.mapM _), List.mapM_append, List.mapM_cons, hb]
    exact agree_bind fun ss _ => .ok (.idle ss rfl)
  | @apart before after b c h =>
    have hcounted : b.Counted := hcs b (by simp)
    simp only [List.mapM_append, List.mapM_cons, resolveBlock_join hcounted h, bind_assoc,
      pure_bind]
    refine agree_bind fun ss _ => agree_bind fun s hs => agree_bind fun t ht => ?_
    refine agree_bind fun us _ => .ok (.apart ss us ?_)
    have hfills := (resolveBlock_fills hcounted hs).1
    have hstart := (resolveBlock_fills (hcs c (by simp)) ht).1.origin
    rw [hstart, h, Section.stop, Block.stop, hfills.origin, hfills.size]

theorem Cut.resolve {l m : Layout} (h : Cut l m) (hm : m.Sound) (linker : Bool) :
    Agree Listing.Cut (l.resolve linker) (m.resolve linker) := by
  unfold Layout.resolve
  rw [resolveBlock_congr h.labels, checkLimit_congr h.labels, h.limits, h.labels]
  refine (agree_resolveBlocks h.blocks hm.counted).bind fun xs ys hcut => ?_
  exact agree_bind fun _ _ => .ok ⟨hcut, rfl⟩

end Layout

namespace Page

/-- An address belongs to at most one of two pages that touch. -/
theorem toList_byteAt_append {p q : Page} (h : p.stop = q.start) (a : Nat) :
    ((p.append q).byteAt? a).toList = (p.byteAt? a).toList ++ (q.byteAt? a).toList := by
  cases hp : p.byteAt? a with
  | none =>
    have hq : (p.append q).byteAt? a = q.byteAt? a :=
      Option.ext fun b => by simp [byteAt_append h, hp]
    rw [hq]
    rfl
  | some b =>
    have hcovers : p.Covers a := covers_iff.mpr ⟨b, hp⟩
    have hq : q.byteAt? a = none := if_neg (by rw [← h]; exact Nat.not_le.mpr hcovers.2)
    rw [(byteAt_append h).mpr (.inl hp), hq]
    rfl

end Page

namespace Section.Cut

variable {ss ts : List Section}

theorem byteAt (h : Cut ss ts) (a : Nat) :
    ts.filterMap (·.byteAt? a) = ss.filterMap (·.byteAt? a) := by
  cases h with
  | same => rfl
  | @idle _ s h =>
    have hs : s.byteAt? a = none := by simp [Section.byteAt?, page, bytes, h, Page.byteAt?]
    simp [hs]
  | @apart before after s t h =>
    have hjoin := Page.toList_byteAt_append (p := s.page) (q := t.page) h.symm a
    rw [← page_join] at hjoin
    simp only [List.filterMap_eq_flatMap_toList, List.flatMap_append, List.flatMap_cons, byteAt?,
      hjoin, List.append_assoc]

/-- Sections overlap or not, wherever they are cut. -/
theorem apart_iff (h : Cut ss ts) :
    (ts.map page).Pairwise Page.Apart ↔ (ss.map page).Pairwise Page.Apart := by
  cases h with
  | same => rfl
  | @idle _ s h =>
    have hs (p : Page) : p.Apart s.page := by
      intro a ha
      exact Page.bytes_ne_nil ha.2 (by simp [page, bytes, h])
    simp [List.pairwise_append, hs]
  | @apart before after s t h =>
    have htouch : s.page.stop = t.page.start := h.symm
    simp only [List.map_append, List.map_cons, page_join]
    -- The order of sections does not matter, so the parts can be brought to the front.
    have hparts : (before.map page ++ s.page :: t.page :: after.map page).Perm
        (s.page :: t.page :: (before.map page ++ after.map page)) :=
      List.perm_middle.trans (List.perm_middle.cons _)
    have hwhole : (before.map page ++ s.page.append t.page :: after.map page).Perm
        (s.page.append t.page :: (before.map page ++ after.map page)) := List.perm_middle
    rw [hparts.pairwise_iff Page.Apart.symm, hwhole.pairwise_iff Page.Apart.symm]
    exact (Image.apart_append_cons htouch).symm

end Section.Cut

namespace Listing.Cut

variable {x y : Listing}

theorem overlaps_iff (h : Cut x y) : y.Overlaps ↔ x.Overlaps := by
  have happart := h.sections.apart_iff
  rw [List.pairwise_map, List.pairwise_map, ← not_overlaps, ← not_overlaps] at happart
  exact not_iff_not.mp happart

theorem exists_byteAt_iff (h : Cut x y) (a : Nat) (b : UInt8) :
    (∃ s ∈ y.sections, s.byteAt? a = some b) ↔ ∃ s ∈ x.sections, s.byteAt? a = some b := by
  have hbytes := congrArg (b ∈ ·) (h.sections.byteAt a)
  simpa only [List.mem_filterMap, eq_iff_iff] using hbytes

/-- The pages are the same, as they are determined by what is at each address. -/
theorem pages (h : Cut x y) :
    (∃ ps, Image.pages x = .ok ps ∧ Image.pages y = .ok ps) ∨
      ∃ e f, Image.pages x = .error e ∧ Image.pages y = .error f := by
  rcases Image.pages_cases x with ⟨ps, hps, hx, hpj⟩ | ⟨⟨l, origin, hx⟩, hoverlap⟩
  · rcases Image.pages_cases y with ⟨qs, hqs, -, hqj⟩ | ⟨-, hy⟩
    · have heq : qs = ps := by
        refine Image.eq_of_byteAt hqj.gaps hpj.gaps hqj.filled hpj.filled fun a b => ?_
        rw [hqj.byteAt, hpj.byteAt, h.exists_byteAt_iff]
      exact .inl ⟨ps, hps, heq ▸ hqs⟩
    · exact absurd (h.overlaps_iff.mp hy) hx
  · rcases Image.pages_cases y with ⟨-, -, hy, -⟩ | ⟨⟨m, start, hy⟩, -⟩
    · exact absurd (h.overlaps_iff.mpr hoverlap) hy
    · exact .inr ⟨_, _, hx, hy⟩

end Listing.Cut

/-- A format that shows the bytes at their addresses, and nothing of the source. -/
def Format.isImage : Format → Bool
  | .binary | .hex => true
  | _ => false

/-- An image depends on the pages only. -/
theorem Outputs.exists_artifact_eq (o : Outputs) {f : Format} (hf : f.isImage) :
    ∃ render : List Page → Artifact, ∀ l : Layout, { o with layout := l }.artifact f =
      l.resolve f.linksExternals >>= fun x => Image.pages x >>= fun ps => .ok (render ps) := by
  cases f with
  | binary => exact ⟨fun ps => .bytes (Image.bytes o.options.fill 0 ps), fun _ => rfl⟩
  | hex => exact ⟨fun ps => .text (IntelHex.text o.options.hexWidth ps), fun _ => rfl⟩
  | asm | gcc | map => simp [Format.isImage] at hf

/-- The artifact is the same, or there is none. -/
theorem Layout.Cut.artifact {l m : Layout} (h : Cut l m) (hm : m.Sound) (o : Outputs) {f : Format}
    (hf : f.isImage) :
    (∃ a, { o with layout := l }.artifact f = .ok a ∧ { o with layout := m }.artifact f = .ok a) ∨
      ∃ d e, { o with layout := l }.artifact f = .error d ∧
        { o with layout := m }.artifact f = .error e := by
  obtain ⟨render, hrender⟩ := o.exists_artifact_eq hf
  rw [hrender, hrender]
  have hresolve := h.resolve hm f.linksExternals
  generalize l.resolve f.linksExternals = first, m.resolve f.linksExternals = second at hresolve
  cases hresolve with
  | error e => exact .inr ⟨e, e, rfl, rfl⟩
  | ok hcut =>
    rcases hcut.pages with ⟨ps, hx, hy⟩ | ⟨d, e, hx, hy⟩
    · exact .inl ⟨render ps, by simp only [bind, Except.bind, hx, hy, and_self]⟩
    · exact .inr ⟨d, e, by simp only [bind, Except.bind, hx, hy, and_self]⟩

namespace Layout

/-- Going on at the address that is reached already changes nothing that matters: the two passes
fail at the same place or not at all, labels have the same addresses, every address has the same
bytes, and the pages and the images are the same. -/
theorem org_at_cursor_transparent (before after : List Emission) (linker : Bool) :
    let l := run (before ++ after)
    let m := run (before ++ .org (run before).cursor :: after)
    m.labels = l.labels ∧ m.cursor = l.cursor ∧
      ((∃ y, m.resolve linker = .ok y) ↔ ∃ x, l.resolve linker = .ok x) ∧
      (∀ e, m.resolve linker = .error e ↔ l.resolve linker = .error e) ∧
      (∀ x y, l.resolve linker = .ok x → m.resolve linker = .ok y →
        y.labels = x.labels ∧
        (∀ a, y.sections.filterMap (·.byteAt? a) = x.sections.filterMap (·.byteAt? a)) ∧
        ((∃ ps, Image.pages x = .ok ps ∧ Image.pages y = .ok ps) ∨
          ∃ d e, Image.pages x = .error d ∧ Image.pages y = .error e)) ∧
      ∀ (o : Outputs) (f : Format), f.isImage →
        (∃ a, { o with layout := l }.artifact f = .ok a ∧
            { o with layout := m }.artifact f = .ok a) ∨
          ∃ d e, { o with layout := l }.artifact f = .error d ∧
            { o with layout := m }.artifact f = .error e := by
  intro l m
  have hl : l = (run before).runFrom after := List.foldl_append
  have hm : m = ((run before).org (run before).cursor).runFrom after := List.foldl_append
  have hcut : Cut l m := by
    rw [hl, hm]
    exact (cut_org (sound_run before)).runFrom after
  have hsound : m.Sound := sound_run _
  have hresolve := hcut.resolve hsound linker
  refine ⟨hcut.labels, hcut.cursor, ?_, ?_, ?_, fun o f hf => hcut.artifact hsound o hf⟩
  · exact hresolve.ok_iff
  · exact fun e => hresolve.error_iff
  · intro x y hx hy
    have h := hresolve.of_ok hx hy
    exact ⟨h.labels, h.sections.byteAt, h.pages⟩

/-- The end of a procedure. -/
def returning : Emission := .instruction ⟨Location.point "a" 1 1, ⟨.ret, [], none⟩⟩

/-- Two instructions are one section, or two that make the same page. -/
theorem org_at_cursor_transparent_between_two :
    ∃ x y ps, (run ([returning] ++ [returning])).resolve false = .ok x ∧
      (run ([returning] ++ .org (run [returning]).cursor :: [returning])).resolve false = .ok y ∧
      x.sections.length = 1 ∧ y.sections.length = 2 ∧
      Image.pages x = .ok ps ∧ Image.pages y = .ok ps := by
  obtain ⟨-, -, -, -, hpages, -⟩ := org_at_cursor_transparent [returning] [returning] false
  obtain ⟨x, hx, hsections, hpage⟩ : ∃ x, (run ([returning] ++ [returning])).resolve false = .ok x ∧
      x.sections.length = 1 ∧ Image.pages x = .ok [⟨0, [0x08, 0x95, 0x08, 0x95]⟩] := by
    refine ⟨_, rfl, rfl, ?_⟩
    rw [Image.pages_of_occupied rfl]
    rfl
  obtain ⟨-, -, ⟨ps, hps, hqs⟩ | ⟨d, _, herror, -⟩⟩ := hpages x _ hx rfl
  · exact ⟨x, _, ps, hx, rfl, hsections, rfl, hps, hqs⟩
  · cases hpage.symm.trans herror

end Layout

end Avr
