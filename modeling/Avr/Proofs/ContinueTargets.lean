import Avr.Proofs.Redirection

namespace Avr

open Outcome

/-- A loop that ends each round with an update, which goes round again or not. -/
structure UpdatedLoop where
  /-- What its labels are called after. -/
  kind : String
  /-- Sets the loop up and gives the update. -/
  setup : Lowering (Lowering Unit)
  body : List (Located Stmt)

namespace Scope

/-- Loops that count or wait step their counter or test their bit; the others test a condition. -/
def updatedLoop? (s : Scope) (l : Location) : Stmt → Option UpdatedLoop
  | .loop (some condition) body => some {
      kind := "loop"
      setup := do
        let counter ← s.counter condition
        return s.place l (counter.update (.plain (s.generated "loop" l)))
      body }
  | .doWhile body condition => some {
      kind := "do"
      setup := return do
        let c ← s.resolve condition
        s.gotoIf l true c (.plain (s.generated "do" l)) (s.generated "while" l)
      body }
  | _ => none

/-- Where `continue` and `break` go to. -/
def loopLabels (s : Scope) (l : Location) (loop : UpdatedLoop) : LoopLabels where
  next := s.generated (if anyContinues loop.body then loop.kind ++ "Next" else loop.kind) l
  stop := s.generated (loop.kind ++ "End") l

/-- The scope of the body. -/
def inside (s : Scope) (l : Location) (loop : UpdatedLoop) : Scope :=
  { s with loop := some (s.loopLabels l loop) }

variable {s : Scope} {expand : Location → Procedure → Scope → Lowering Unit} {l : Location}
  {st : Stmt} {loop : UpdatedLoop}

theorem lower_updatedLoop (h : s.updatedLoop? l st = some loop) :
    s.lower expand l st = (do
      let update ← loop.setup
      Trace.define l (s.generated loop.kind l)
      (s.inside l loop).lowerAll expand loop.body
      if anyContinues loop.body then Trace.define l (s.loopLabels l loop).next
      update
      Trace.define l (s.loopLabels l loop).stop) := by
  unfold updatedLoop? at h
  split at h
  · cases h
    simp only [lower, inside, loopLabels, bind_assoc, pure_bind, ← apply_ite (s.generated · l)]
    rfl
  · cases h
    simp only [lower, inside, loopLabels, bind_assoc, pure_bind, ← apply_ite (s.generated · l)]
    rfl
  · cases h

open Trace in
/-- The emissions of a loop, one part after the other. -/
theorem yields_updatedLoop {p q : Progress} {es : List Emission}
    (hloop : s.updatedLoop? l st = some loop) (h : (s.lower expand l st p).Yields es ((), q)) :
    ∃ update a b setup code round,
      (loop.setup p).Yields setup (update, a) ∧
      ((s.inside l loop).lowerAll expand loop.body a).Yields code ((), b) ∧
      (update b).Yields round ((), q) ∧
      es = setup ++ (.label ⟨l, s.generated loop.kind l⟩ :: (code ++
        ((if anyContinues loop.body then [.label ⟨l, (s.loopLabels l loop).next⟩] else []) ++
          (round ++ [.label ⟨l, (s.loopLabels l loop).stop⟩])))) := by
  rw [lower_updatedLoop hloop] at h
  obtain ⟨update, a, setup, _, hsetup, h₁, rfl⟩ := yields_bind_state.mp h
  obtain ⟨_, _, _, _, hstart, h₂, rfl⟩ := yields_bind_state.mp h₁
  obtain ⟨rfl, rfl⟩ := Scope.yields_define hstart
  obtain ⟨_, b, code, _, hcode, h₃, rfl⟩ := yields_bind_state.mp h₂
  by_cases hc : anyContinues loop.body
  · simp only [hc, if_true] at h₃ ⊢
    obtain ⟨_, _, _, _, hnext, h₄, rfl⟩ := yields_bind_state.mp h₃
    obtain ⟨rfl, rfl⟩ := Scope.yields_define hnext
    obtain ⟨_, _, round, _, hround, h₅, rfl⟩ := yields_bind_state.mp h₄
    obtain ⟨rfl, rfl⟩ := Scope.yields_define h₅
    exact ⟨update, a, b, setup, code, round, hsetup, hcode, hround, by simp⟩
  · simp only [hc] at h₃ ⊢
    obtain ⟨_, _, round, _, hround, h₄, rfl⟩ := yields_bind_state.mp h₃
    obtain ⟨rfl, rfl⟩ := Scope.yields_define h₄
    exact ⟨update, a, b, setup, code, round, hsetup, hcode, hround, by simp⟩

end Scope

namespace Line

/-- Where the line jumps to, by its words. -/
def target? (x : Line) : Option Int :=
  match x.content with
  | .instruction i _ => do
    let slots ← i.mnemonic.formOfLength? i.operands.length
    let slot ← slots.find? Slot.isJump
    slot.target? x.offset (Word.ofBytes x.bytes)
  | _ => none

def JumpsTo (x : Line) (name : String) : Prop := ∃ i, x.Shows i ∧ i.JumpsTo (.plain name)

end Line

/-- No instruction has two targets. -/
theorem JumpForm.find_slots {m : Mnemonic} {slots : List Slot} {slot : Slot}
    (h : JumpForm m slots slot) (hslot : slot.isJump) : slots.find? Slot.isJump = some slot := by
  cases h with
  | relative _ _ _ hslots => simp [hslots, hslot]
  | status _ _ hslots heq =>
    subst hslots heq
    rfl
  | far _ _ hslots heq =>
    subst hslots heq
    rfl

namespace Layout

variable {l : Layout} {linker : Bool} {listing : Listing}

/-- A line that jumps to a label leads to its address. -/
theorem target_line (hsound : l.Sound) (heven : l.EvenOrigins) (hr : l.resolve linker = .ok listing)
    (hbound : ∀ s ∈ listing.sections, ∀ x ∈ s.lines, x.offset < 2 ^ 31) {s : Section}
    (hs : s ∈ listing.sections) {x : Line} (hx : x ∈ s.lines) {name : String}
    (hjump : x.JumpsTo name) :
    ∃ a : Nat, l.labels.lookup name = some a ∧ x.target? = some a := by
  obtain ⟨i, ⟨resolved, hcontent⟩, slots, slot, hform, hslot, hj⟩ := hjump
  have hlines := even_lines hsound heven hr
  obtain ⟨hperm, hplaced⟩ := labels_perm hsound hr
  obtain ⟨b, _, hb⟩ := mem_of_forall₂ (resolve_ok hr).1 hs
  have hi := lines_instruction (resolveBlock_lines hb) x hx i resolved hcontent
  obtain ⟨slots', hform', htarget⟩ := resolveInstruction_label hi
  obtain rfl : slots = slots' := Except.ok.inj (hform.symm.trans hform')
  obtain ⟨a, hfind, htarget⟩ := htarget slot (.plain name) hslot hj
  have hlookup : l.labels.lookup name = some a := by
    simpa [find?, LabelRef.find?, LabelRef.candidates, LabelRef.plain] using hfind
  refine ⟨a, hlookup, ?_⟩
  have hmem : (name, a) ∈ listing.labels :=
    hperm.mem_iff.mpr ((lookup_mem hsound.distinct).mp hlookup)
  obtain ⟨s', hs', y, hy, ho⟩ := Listing.line_of_labelLines (hplaced.mem_iff.mp hmem)
  dsimp only at ho
  have haim : slot.aim x.offset (reference x.offset a slot) = a :=
    aim_reference (hlines s hs x hx) (ho ▸ hlines s' hs' y hy) (hbound s hs x hx)
      (ho ▸ hbound s' hs' y hy)
  obtain ⟨hlength, -⟩ := Mnemonic.form_ok hform
  obtain ⟨hforms, -⟩ := Mnemonic.formOfLength_some hlength
  have hfound := (i.mnemonic.jumpForm slots hforms slot (List.of_mem_zip hslot).1 hj).find_slots hj
  rw [haim] at htarget
  simp [Line.target?, hcontent, hlength, hfound, htarget]

theorem Places.sizes_pos {start : Nat} {es : List Emission} {xs : List Line}
    (h : l.Places linker start es xs) {x : Line} (hx : x ∈ xs) {i : Instruction}
    (hshows : x.Shows i) : 0 < Emission.sizes es := by
  obtain ⟨e, he, hfills⟩ := mem_of_forall₂ (lines_fill h.lines).1.flip hx
  obtain ⟨resolved, hcontent⟩ := hshows
  have hsize : 0 < e.size := by
    have hshown := hfills.shown
    rw [hcontent] at hshown
    cases e with
    | instruction j => exact j.value.size_pos
    | _ => cases hshown
  obtain ⟨before, after, hsplit⟩ := List.append_of_mem he
  simp only [Emission.sizes, hsplit, Entry.sizes, List.map_append, List.map_cons, List.sum_append,
    List.sum_cons]
  omega

/-- A label that may be left out takes up no space. -/
theorem Places.mark {start : Nat} {b : Bool} {n : Located String} {es : List Emission}
    {xs : List Line}
    (h : l.Places linker start ((if b then [.label n] else []) ++ es) xs) :
    (b → l.labels.lookup n.value = some start) ∧
      ∃ ys zs, (∀ y ∈ ys, y.bytes = []) ∧ l.Places linker start es zs ∧ xs = ys ++ zs := by
  cases b with
  | false => exact ⟨by simp, [], xs, by simp, h, rfl⟩
  | true =>
    obtain ⟨hlabel, y, zs, hy, hzs, rfl⟩ := h.label
    exact ⟨fun _ => hlabel, [y], zs, by simpa using hy, hzs, rfl⟩

end Layout

/-- The code of the body of a loop with an update is followed by the code of the update, and with
another label for `continue` it would be the same but for jumps to that label; there are none unless
the body, or a procedure that is expanded in it, holds a `continue`. All jumps to the label lead to
the update if the text of the body itself holds a `continue`, and to the start of the loop if not.
So `continue` never passes over the update just if the text of the body holds one or no jump comes
from one. -/
theorem continue_leads_to_update_iff (device : Device) (program : Program) (formats : List Format)
    (options : OutputOptions) (linker : Bool) (c : Compiled) (listing : Listing) (s : Scope)
    (depth : Nat) (l : Location) (st : Stmt) (loop : UpdatedLoop) (p q : Progress)
    (es : List Emission) (hformats : formats ≠ [])
    (hcompile : compile device program (.ofFormats formats options) = .ok c)
    (hresolve : c.outputs.layout.resolve linker = .ok listing)
    (hbound : ∀ sec ∈ listing.sections, ∀ x ∈ sec.lines, x.offset < 2 ^ 31)
    (hloop : s.updatedLoop? l st = some loop)
    (hlower : (s.lower (Scope.expandUpTo depth) l st p).Yields es ((), q))
    (hpart : es <:+:
      (program.lower device (Outputs.ofFormats formats options).linksExternals).emitted) :
    let inside := s.inside l loop
    let next := (s.loopLabels l loop).next
    ∃ update a b setup code round,
      (loop.setup p).Yields setup (update, a) ∧
      (inside.lowerAll (Scope.expandUpTo depth) loop.body a).Yields code ((), b) ∧
      (update b).Yields round ((), q) ∧
      (∀ name, ∃ code',
        ((inside.resuming name).lowerAll (Scope.expandUpTo depth) loop.body a).Yields code'
          ((), b) ∧
        List.Forall₂ (Emission.Redirects (anyResumes (s.globals.resumesUpTo depth) loop.body)
          (.plain next) (.plain name)) code code') ∧
      ∃ sec ∈ listing.sections, ∃ before body marks after rest start,
        sec.lines = before ++ body ++ marks ++ after ++ rest ∧
        (∀ x ∈ marks, x.bytes = []) ∧
        c.outputs.layout.Places linker start code body ∧
        c.outputs.layout.Places linker (start + Emission.sizes code) round after ∧
        (∀ x ∈ body, x.JumpsTo next → x.target? = some
          (if anyContinues loop.body then start + Emission.sizes code else start : Nat)) ∧
        ((∀ x ∈ body, x.JumpsTo next → x.target? = some (start + Emission.sizes code : Nat)) ↔
          anyContinues loop.body ∨ ∀ x ∈ body, ¬ x.JumpsTo next) := by
  intro inside next
  obtain ⟨hsound, heven⟩ := compile_layout hcompile
  have hinPlace : ∀ e ∈ es, e.InPlace := by
    have hemits := Scope.inPlace_lower (Scope.inPlace_expandUpTo depth) s l st p
    rwa [Trace.Emits, hlower.1] at hemits
  obtain ⟨update, a, b, setup, code, round, hsetup, hcode, hround, rfl⟩ :=
    Scope.yields_updatedLoop hloop hlower
  refine ⟨update, a, b, setup, code, round, hsetup, hcode, hround, ?_, ?_⟩
  · intro name
    have hfollows := Scope.redirects_lowerAll (s := inside)
      (Scope.follows_expandUpTo s.globals next name depth) loop.body a
    refine ⟨_, ⟨rfl, hfollows.outcome.symm.trans hcode.2⟩, ?_⟩
    rw [← hcode.1]
    exact hfollows.emitted
  obtain ⟨pre, post, hemitted⟩ := hpart
  have happly := compile_applyAll hformats hcompile
  rw [← hemitted] at happly
  obtain ⟨origin, zs, hplaces, hlines⟩ := Layout.exists_places happly hinPlace hresolve
  obtain ⟨xs, _, -, h₁, rfl⟩ := hplaces.append
  obtain ⟨hstart, x, _, -, h₂, rfl⟩ := h₁.label
  obtain ⟨body, _, hbody, h₃, rfl⟩ := h₂.append
  obtain ⟨hmark, marks, _, hmarks, h₄, rfl⟩ := h₃.mark
  obtain ⟨after, rest, hafter, -, rfl⟩ := h₄.append
  obtain ⟨sec, hsec, before, behind, hsplit⟩ := hlines (by simp)
  have hnext : c.outputs.layout.labels.lookup next = some
      (if anyContinues loop.body then origin + Emission.sizes setup + Emission.sizes code
        else origin + Emission.sizes setup) := by
    by_cases hc : anyContinues loop.body
    · rw [if_pos hc, ← hmark hc]
    · rw [if_neg hc, ← hstart]
      simp [next, Scope.loopLabels, hc]
  have htarget : ∀ x ∈ body, x.JumpsTo next → x.target? = some
      (if anyContinues loop.body then origin + Emission.sizes setup + Emission.sizes code
        else origin + Emission.sizes setup : Nat) := by
    intro y hy hjump
    obtain ⟨address, hlookup, htarget⟩ := Layout.target_line hsound heven hresolve hbound hsec
      (x := y) (by simp [hsplit, hy]) hjump
    rw [htarget, Option.some.inj (hlookup.symm.trans hnext)]
  refine ⟨sec, hsec, before ++ (xs ++ [x]), body, marks, after, rest ++ behind,
    origin + Emission.sizes setup, by simp [hsplit], hmarks, hbody, hafter, htarget, ?_⟩
  constructor
  · intro hupdate
    by_cases hc : anyContinues loop.body
    · exact .inl hc
    · refine .inr fun y hy hjump => ?_
      have hpos := hbody.sizes_pos hy hjump.choose_spec.1
      have hstays := Option.some.inj ((hupdate y hy hjump).symm.trans (htarget y hy hjump))
      rw [if_neg hc] at hstays
      omega
  · intro h y hy hjump
    rcases h with hc | hnone
    · rw [htarget y hy hjump, if_pos hc]
    · exact (hnone y hy hjump).elim

namespace ContinueSample

open Sample

/-- An inline procedure that is nothing but `continue`. -/
def next : Procedure := ⟨at1 "next", [], [at1 .again], true⟩

/-- `loop (r16 = 3) { next(); inc r17 }` -/
def body : List (Located Stmt) :=
  [at1 (.call ⟨at1 "next", []⟩), at1 (.asm ⟨at1 "inc", [at1 (.ident "r17")]⟩)]

def condition : Located Expr := at1 (.assign .set (at1 (.ident "r16")) (at1 (.number 3)))

def main : Procedure := ⟨at1 "main", [], [at1 (.loop (some condition) body)], false⟩

def program : Program :=
  { vectors := none, items := [at1 (.procedure next), at1 (.procedure main)] }

def scope : Scope :=
  { globals := { device := sampleDevice, procedures := [next, main] }, procedure := some main }

def lowered : Trace (Unit × Progress) :=
  scope.lower (Scope.expandUpTo 2) (.point "a" 1 1) (.loop (some condition) body) {}

def listing : Checked Listing := do
  let c ← compile sampleDevice program (.ofFormats [.binary] {})
  c.outputs.layout.resolve false

def lines : List (List (Nat × List UInt8)) :=
  [[(0, []), (0, [3, 224]), (2, []), (2, [255, 207]), (4, [19, 149]), (6, [10, 149]),
    (8, [225, 247]), (10, [])]]

theorem listing_lines :
    listing.toOption.map (·.sections.map (·.lines.map fun x => (x.offset, x.bytes))) =
      some lines := by
  decide +kernel

theorem lowered_part : lowered.emitted <:+: (program.lower sampleDevice false).emitted :=
  ⟨[.label (at1 "main"), .declare "main" .global], [], by with_unfolding_all rfl⟩

theorem lowered_outcome : lowered.outcome = .ok ((), { inlined := 1 }) := by
  with_unfolding_all rfl

def counted : UpdatedLoop where
  kind := "loop"
  setup := do
    let counter ← scope.counter condition
    return scope.place (.point "a" 1 1) (counter.update (.plain "main@loop@1"))
  body := body

theorem updatedLoop :
    scope.updatedLoop? (.point "a" 1 1) (.loop (some condition) body) = some counted := by
  with_unfolding_all rfl

theorem setup_outcome : (counted.setup {}).outcome =
    .ok (scope.place (.point "a" 1 1) (Counter.update (.plain "main@loop@1") (.reg ⟨16⟩)), {}) := by
  with_unfolding_all rfl

/-- The code of the body: the jump of `continue`, and `inc`. -/
theorem body_emitted :
    ((scope.inside (.point "a" 1 1) counted).lowerAll (Scope.expandUpTo 2) body {}).emitted =
      [.instruction (at1 { mnemonic := .rjmp, operands := [.label (.plain "main@loop@1")] }),
        .instruction (at1 { mnemonic := .inc, operands := [.reg ⟨17⟩] })] := by
  with_unfolding_all rfl

theorem next_label : (scope.loopLabels (.point "a" 1 1) counted).next = "main@loop@1" := by
  decide +kernel

end ContinueSample

open ContinueSample in
/-- A `continue` in an inline procedure leads to the start of the loop, in front of `inc`. -/
theorem continue_leads_to_update_iff_inline :
    ∃ c listing, compile sampleDevice ContinueSample.program (.ofFormats [.binary] {}) = .ok c ∧
      c.outputs.layout.resolve false = .ok listing ∧
      ∃ sec ∈ listing.sections, ∃ start : Nat, ∃ jump ∈ sec.lines, ∃ update ∈ sec.lines,
        jump.JumpsTo "main@loop@1" ∧ jump.target? = some (start : Int) ∧
        update.Shows { mnemonic := .dec, operands := [.reg ⟨16⟩] } ∧ update.offset = start + 4 := by
  obtain ⟨listing, hl, hlines⟩ := Option.map_eq_some_iff.mp listing_lines
  have hl : ContinueSample.listing = .ok listing := Outcome.eq_ok_of_toOption hl
  obtain ⟨c, hc, hr⟩ := bind_ok.mp hl
  have hsmall : ∀ row ∈ lines, ∀ p ∈ row, p.1 < 2 ^ 31 := by decide
  have hbound : ∀ sec ∈ listing.sections, ∀ x ∈ sec.lines, x.offset < 2 ^ 31 := by
    intro sec hsec x hx
    exact hsmall _ (hlines ▸ List.mem_map_of_mem hsec) _ (List.mem_map_of_mem hx)
  obtain ⟨update, a, b, setup, code, round, hsetup, hcode, hround, -, sec, hsec, before, body',
      marks, after, rest, start, hsplit, -, hbody, hafter, htarget, -⟩ :=
    continue_leads_to_update_iff sampleDevice ContinueSample.program [.binary] {} false c listing
      scope 2 (.point "a" 1 1) (.loop (some condition) body) counted {} { inlined := 1 }
      lowered.emitted (by simp) hc hr hbound updatedLoop ⟨rfl, lowered_outcome⟩ lowered_part
  cases hsetup.2.symm.trans setup_outcome
  cases hcode.1.symm.trans body_emitted
  obtain ⟨⟨_, ⟨_, ⟨⟩, rfl⟩, rfl⟩, -⟩ := Scope.yields_place.mp hround
  obtain ⟨x, _, r, -, hx, -, -, rfl⟩ := hbody.instruction
  obtain ⟨y, _, r', hoffset, hy, -, -, rfl⟩ := hafter.instruction
  rw [next_label] at htarget
  have hjump : x.JumpsTo "main@loop@1" := ⟨_, ⟨r, hx⟩, [.rel12], .rel12, rfl, .head _, rfl⟩
  exact ⟨c, listing, hc, hr, sec, hsec, start, x, by simp [hsplit], y, by simp [hsplit], hjump,
    htarget x (by simp) hjump, ⟨r', hy⟩, hoffset⟩

end Avr
