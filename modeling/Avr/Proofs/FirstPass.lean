import Mathlib.Algebra.Order.Ring.Nat
import Avr.Output.Outputs

namespace Avr

namespace Entry

/-- The name that a label entry defines. -/
def name? : Entry → Option String
  | label n => some n.value
  | _ => none

/-- Bytes reserved for a row of entries. -/
def sizes (es : List Entry) : Nat := (es.map size).sum

/-- The labels of a row of entries that starts at `here`. -/
def labelsFrom : Nat → List Entry → List (String × Nat)
  | _, [] => []
  | here, e :: es => e.name?.toList.map (·, here) ++ labelsFrom (here + e.size) es

theorem labelsFrom_append (here : Nat) (es fs : List Entry) :
    labelsFrom here (es ++ fs) = labelsFrom here es ++ labelsFrom (here + sizes es) fs := by
  induction es generalizing here with
  | nil => simp [labelsFrom, sizes]
  | cons e es ih => simp [labelsFrom, sizes, ih, Nat.add_assoc]

end Entry

namespace Block

def labels (b : Block) : List (String × Nat) := Entry.labelsFrom b.origin b.entries.toList

/-- The recorded size is what the entries reserve. -/
def Counted (b : Block) : Prop := b.size = Entry.sizes b.entries.toList

theorem counted_push {b : Block} (h : b.Counted) (e : Entry) : (b.push e).Counted := by
  have hb : b.size = Entry.sizes b.entries.toList := h
  simp [Counted, push, hb, Entry.sizes]

/-- A new label lies at the end of its block. -/
theorem labels_push {b : Block} (h : b.Counted) (e : Entry) :
    (b.push e).labels = b.labels ++ e.name?.toList.map (·, b.stop) := by
  have hb : b.size = Entry.sizes b.entries.toList := h
  simp [labels, push, stop, hb, Entry.labelsFrom_append, Entry.labelsFrom]

end Block

/-- What is laid down for the emission. -/
def Emission.entry? : Emission → Option Entry
  | label n => some (.label n)
  | instruction i => some (.instruction i)
  | data d => some (.data d)
  | org _ | limit _ | declare .. => none

/-- Entries that lie one after the other. -/
structure Stretch where
  origin : Nat := 0
  entries : List Entry := []

namespace Stretch

def push (s : Stretch) (e : Entry) : Stretch := { s with entries := s.entries ++ [e] }

/-- What the calls ask for, where these names are taken and `current` is the stretch begun last. An
entry goes there unless it takes a name a second time. What is laid down before the first `org` lies
at the start of the memory, and a stretch without entries gives way to the next. -/
def asked (names : List String) (current : Option Stretch) : List Emission → List Stretch
  | [] => current.toList
  | .org origin :: es =>
    (current.filter (!·.entries.isEmpty)).toList ++ asked names (some { origin }) es
  | e :: es =>
    match e.entry? with
    | none => asked names current es
    | some x =>
      if x.name?.any (· ∈ names) then asked names current es
      else asked (x.name?.toList ++ names) (some ((current.getD {}).push x)) es

end Stretch

def Block.stretch (b : Block) : Stretch := ⟨b.origin, b.entries.toList⟩

namespace Layout

/-- One call of the first pass. Declarations concern the linker alone. -/
def apply (l : Layout) : Emission → Checked Layout
  | .org origin => .ok (l.org origin)
  | .label name => l.label name
  | .instruction i => .ok (l.instruction i)
  | .data d => .ok (l.data d)
  | .limit s => .ok (l.limit s)
  | .declare .. => .ok l

/-- The layout after a call. A call that fails leaves it as it was. -/
def attempt (l : Layout) (e : Emission) : Layout :=
  match l.apply e with
  | .ok next => next
  | .error _ => l

def runFrom (l : Layout) (es : List Emission) : Layout := es.foldl attempt l

/-- The layout after all calls, whichever of them failed. -/
def run (es : List Emission) : Layout := runFrom {} es

/-- The name that the call defines, unless it fails. -/
def accepts (l : Layout) : Emission → Option String
  | .label name => if (l.label name).isOk then some name.value else none
  | _ => none

/-- The names that the calls define, in their order. -/
def accepted (l : Layout) : List Emission → List String
  | [] => []
  | e :: es => (l.accepts e).toList ++ (l.attempt e).accepted es

/-- The block that the next entry goes to. -/
def last (l : Layout) : Block := l.current.getD {}

theorem cursor_eq (l : Layout) : l.cursor = l.last.stop := by
  unfold cursor last
  cases l.current <;> rfl

theorem blocks_push (l : Layout) (e : Entry) :
    (l.push e).blocks = l.closed.toList ++ [l.last.push e] := rfl

/-- What only blocks with entries have is had by the closed blocks and the last one. -/
theorem flatMap_blocks (l : Layout) {f : Block → List α} (h : f {} = []) :
    l.blocks.flatMap f = l.closed.toList.flatMap f ++ f l.last := by
  unfold blocks last
  cases l.current with
  | none => simp [h]
  | some b => simp

/-- The counts of the first pass are those of the entries. -/
structure Sound (l : Layout) : Prop where
  counted : ∀ b ∈ l.blocks, b.Counted
  placed : l.labels = (l.blocks.flatMap Block.labels).reverse
  distinct : (l.labels.map Prod.fst).Nodup

theorem sound_empty : Sound {} :=
  ⟨by simp [blocks], by simp [blocks], by simp⟩

theorem Sound.counted_last {l : Layout} (h : l.Sound) : l.last.Counted := by
  unfold last
  cases hc : l.current with
  | none => simp [Block.Counted, Entry.sizes]
  | some b => exact h.counted b (by simp [blocks, hc])

theorem Sound.counted_push {l : Layout} (h : l.Sound) (e : Entry) :
    ∀ b ∈ (l.push e).blocks, b.Counted := by
  intro b hb
  rw [blocks_push] at hb
  rcases List.mem_append.mp hb with hm | he
  · exact h.counted b (List.mem_append_left _ hm)
  · rw [List.mem_singleton.mp he]
    exact Block.counted_push h.counted_last e

theorem Sound.labels_push {l : Layout} (h : l.Sound) (e : Entry) :
    ((l.push e).blocks.flatMap Block.labels).reverse =
      (e.name?.toList.map (·, l.cursor)) ++ l.labels := by
  rw [h.placed, l.flatMap_blocks (f := Block.labels) rfl, blocks_push, cursor_eq]
  simp only [List.flatMap_append, List.flatMap_singleton, Block.labels_push h.counted_last]
  cases e.name? <;> simp

theorem Sound.push {l : Layout} (h : l.Sound) {e : Entry} (he : e.name? = none) :
    (l.push e).Sound := by
  refine ⟨h.counted_push e, ?_, h.distinct⟩
  rw [h.labels_push e, he]
  rfl

/-- The names that the first pass has seen. -/
def names (l : Layout) : List String := l.labels.map Prod.fst

theorem label_eq (l : Layout) (name : Located String) :
    l.label name =
      if name.value ∈ l.names then .error ⟨name.location, .semantic (.labelDefined name.value)⟩
      else .ok { l.push (.label name) with labels := (name.value, l.cursor) :: l.labels } := by
  have hfound : (l.labels.lookup name.value).isSome ↔ name.value ∈ l.names := by
    rw [← not_iff_not, Option.not_isSome_iff_eq_none, List.lookup_eq_none_iff]
    simp only [names, List.mem_map, not_exists, not_and, bne_iff_ne]
    exact ⟨fun h p hp he => h p hp he.symm, fun h p hp he => h p hp he.symm⟩
  simp only [label, hfound]

/-- A label that is new goes to the end of the last block and into the table. -/
theorem Sound.label {l m : Layout} {name : Located String} (h : l.Sound)
    (hm : l.label name = .ok m) : m.Sound := by
  rw [label_eq] at hm
  split at hm
  · cases hm
  · next hnew =>
    cases hm
    refine ⟨h.counted_push _, (h.labels_push (.label name)).symm, ?_⟩
    exact List.nodup_cons.mpr ⟨hnew, h.distinct⟩

/-- Going on at another address leaves the blocks before and an empty one at the end. -/
theorem blocks_org (l : Layout) (origin : Nat) :
    ∃ bs b, (l.org origin).blocks = bs ++ [b] ∧ b.origin = origin ∧ b.entries = #[] ∧
      ((l.blocks = bs ∧ b.size = 0) ∨
        ∃ c, l.blocks = bs ++ [c] ∧ c.entries = #[] ∧ b.size = c.size) := by
  unfold org
  cases hc : l.current with
  | none => exact ⟨l.closed.toList, { origin }, rfl, rfl, rfl, .inl ⟨by simp [blocks, hc], rfl⟩⟩
  | some c =>
    by_cases he : c.entries = #[]
    · simp only [he, Array.isEmpty_empty, if_true]
      exact ⟨l.closed.toList, { c with origin, entries := #[] }, rfl, rfl, rfl,
        .inr ⟨c, by simp [blocks, hc], he, rfl⟩⟩
    · simp only [Array.isEmpty_iff, he, if_false]
      exact ⟨l.blocks, { origin }, by simp [blocks, hc], rfl, rfl, .inl ⟨rfl, rfl⟩⟩

theorem labels_org (l : Layout) (origin : Nat) : (l.org origin).labels = l.labels := by
  unfold org
  split
  · split <;> rfl
  · rfl

/-- A fresh block holds no label, and neither does an empty one that moves. -/
theorem Sound.org {l : Layout} (h : l.Sound) (origin : Nat) : (l.org origin).Sound := by
  have hl := l.labels_org origin
  obtain ⟨bs, b, hb, _, he, hold⟩ := l.blocks_org origin
  have hnone (c : Block) (hc : c.entries = #[]) : c.labels = [] := by
    simp [Block.labels, hc, Entry.labelsFrom]
  refine ⟨?_, ?_, by rw [hl]; exact h.distinct⟩
  · intro c hc
    rw [hb] at hc
    rcases hold with ⟨rfl, hs⟩ | ⟨d, hd, hde, hs⟩
    · rcases List.mem_append.mp hc with hm | hm
      · exact h.counted c hm
      · rw [List.mem_singleton.mp hm]
        simp [Block.Counted, hs, he, Entry.sizes]
    · have hcount := h.counted
      rw [hd] at hcount
      rcases List.mem_append.mp hc with hm | hm
      · exact hcount c (List.mem_append_left _ hm)
      · have hz : d.size = Entry.sizes d.entries.toList := hcount d (by simp)
        rw [List.mem_singleton.mp hm]
        simp [Block.Counted, hs, hz, he, hde]
  · rw [hl, h.placed, hb]
    rcases hold with ⟨rfl, _⟩ | ⟨d, hd, hde, _⟩
    · simp [hnone b he]
    · simp [hd, hnone b he, hnone d hde]

theorem Sound.apply {l m : Layout} {e : Emission} (h : l.Sound) (hm : l.apply e = .ok m) :
    m.Sound := by
  cases e with
  | org origin => cases hm; exact h.org origin
  | label name => exact h.label hm
  | instruction i => cases hm; exact h.push rfl
  | data d => cases hm; exact h.push rfl
  | limit s => cases hm; exact ⟨h.counted, h.placed, h.distinct⟩
  | declare symbol linkage => cases hm; exact h

theorem Sound.attempt {l : Layout} (h : l.Sound) (e : Emission) : (l.attempt e).Sound := by
  unfold Layout.attempt
  split
  · next next he => exact h.apply he
  · exact h

theorem Sound.runFrom {l : Layout} (h : l.Sound) (es : List Emission) : (l.runFrom es).Sound := by
  induction es generalizing l with
  | nil => exact h
  | cons e es ih => exact ih (h.attempt e)

theorem sound_run (es : List Emission) : (run es).Sound := sound_empty.runFrom es

/-- A call adds the name that it defines and no other. -/
theorem names_attempt (l : Layout) (e : Emission) :
    (l.attempt e).labels.map Prod.fst = (l.accepts e).toList ++ l.labels.map Prod.fst := by
  cases e with
  | label name =>
    simp only [attempt, apply, accepts]
    cases h : l.label name with
    | error e => rfl
    | ok m =>
      unfold label at h
      split at h
      · cases h
      · cases h
        rfl
  | org origin => exact congrArg (List.map Prod.fst) (l.labels_org origin)
  | instruction i => rfl
  | data d => rfl
  | limit s => rfl
  | declare symbol linkage => rfl

theorem names_runFrom (l : Layout) (es : List Emission) :
    (l.runFrom es).labels.map Prod.fst = (l.accepted es).reverse ++ l.labels.map Prod.fst := by
  induction es generalizing l with
  | nil => rfl
  | cons e es ih =>
    change ((l.attempt e).runFrom es).labels.map Prod.fst = _
    rw [ih (l.attempt e), names_attempt]
    cases h : l.accepts e <;> simp [accepted, h]

/-- Of the layout, what the calls ask for from here on depends on these alone. -/
def asked (l : Layout) (es : List Emission) : List Stretch :=
  l.closed.toList.map Block.stretch ++ Stretch.asked l.names (l.current.map Block.stretch) es

theorem asked_push (l : Layout) (e : Entry) (labels : List (String × Nat)) (es : List Emission) :
    asked { l.push e with labels } es =
      l.closed.toList.map Block.stretch ++ Stretch.asked (labels.map Prod.fst)
        (some (((l.current.map Block.stretch).getD {}).push e)) es := by
  cases hc : l.current <;> simp [asked, push, names, hc, Block.stretch, Block.push, Stretch.push]

theorem asked_org (l : Layout) (origin : Nat) (es : List Emission) :
    (l.org origin).asked es = l.asked (.org origin :: es) := by
  cases hc : l.current with
  | none => simp [asked, org, names, hc, Block.stretch, Stretch.asked]
  | some b =>
    by_cases he : b.entries = #[]
    · simp [asked, org, names, hc, he, Block.stretch, Stretch.asked, Option.filter]
    · simp [asked, org, names, hc, he, Block.stretch, Stretch.asked, Option.filter]

/-- A call is no longer asked for once it is made. -/
theorem asked_attempt (l : Layout) (e : Emission) (es : List Emission) :
    (l.attempt e).asked es = l.asked (e :: es) := by
  cases e with
  | org origin => exact l.asked_org origin es
  | label name =>
    by_cases hname : name.value ∈ l.names
    · have hsame : l.attempt (.label name) = l := by simp [attempt, apply, label_eq, hname]
      simp [hsame, asked, Stretch.asked, Emission.entry?, Entry.name?, hname]
    · have hnext : l.attempt (.label name) =
          { l.push (.label name) with labels := (name.value, l.cursor) :: l.labels } := by
        simp [attempt, apply, label_eq, hname]
      rw [hnext, asked_push]
      simp only [asked, Stretch.asked, Emission.entry?, Entry.name?, Option.any_some, hname,
        decide_false, Bool.false_eq_true, if_false]
      rfl
  | instruction i => exact l.asked_push (.instruction i) l.labels es
  | data d => exact l.asked_push (.data d) l.labels es
  | limit s => rfl
  | declare symbol linkage => rfl

theorem asked_runFrom (l : Layout) (es : List Emission) :
    (l.runFrom es).blocks.map Block.stretch = l.asked es := by
  induction es generalizing l with
  | nil => simp [runFrom, blocks, asked, Stretch.asked, Option.toList_map]
  | cons e es ih => exact (ih (l.attempt e)).trans (l.asked_attempt e es)

end Layout

end Avr
