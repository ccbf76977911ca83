import Avr.Proofs.IdleCode
import Avr.Proofs.Placement

namespace Avr

open Outcome

namespace Stmt

theorem isSkippable_of_isShortAsm {st : Stmt} (h : st.isShortAsm) : st.isSkippable := by
  cases st with
  | asm i => exact h
  | _ => cases h

theorem isSkippable_of_skip {st : Stmt} {v : Value} {r : Mnemonic × Operand × Operand}
    (h : st.skip? v = some r) : st.isSkippable := by
  by_contra hs
  have hasm : ¬ st.isShortAsm := fun h => hs (isSkippable_of_isShortAsm h)
  simp only [skip?, skip?.skipReg, skip?.skipIo, hs, hasm] at h
  split at h <;> simp [hs] at h

/-- An assignment without any code. -/
def Idle (n : Names) (st : Stmt) : Prop :=
  ∃ op target value t v, st = .expr (.assign op target value) ∧
    (n.resolve target).outcome = .ok t ∧ (n.resolve value).outcome = .ok v ∧
    Value.NoAssignBy op t v

/-- Groups in the statement have registers. -/
def Proper (n : Names) : Stmt → Prop
  | .expr (.assign _ target value) =>
    (∀ t, (n.resolve target).outcome = .ok t → t.Proper) ∧
      ∀ v, (n.resolve value).outcome = .ok v → v.Proper
  | .expr (.unary _ e) | .expr (.suffix _ e) => ∀ v, (n.resolve e).outcome = .ok v → v.Proper
  | _ => True

end Stmt

namespace Scope

open Trace

variable {s : Scope} {expand : Location → Procedure → Scope → Lowering Unit} {l : Location}
  {p q : Progress}

theorem jump_of_isSkippable {st : Stmt} (h : st.isSkippable) : s.jump? l st = none := by
  cases st with
  | goto | leave | again => cases h
  | _ => rfl

theorem exists_map_instruction {es : List Emission} (h : ∀ e ∈ es, ∃ i, e = .instruction i) :
    ∃ is : List (Located Instruction), es = is.map .instruction := by
  induction es with
  | nil => exact ⟨[], rfl⟩
  | cons e es ih =>
    obtain ⟨i, rfl⟩ := h e (by simp)
    obtain ⟨is, rfl⟩ := ih fun e he => h e (by simp [he])
    exact ⟨i :: is, rfl⟩

/-- What may stand under a skip is nothing but instructions, and none only if it is idle. -/
theorem lower_isSkippable {st : Stmt} {es : List Emission} (hs : st.isSkippable)
    (h : (s.lower expand l st p).Yields es ((), q)) :
    (∃ is : List (Located Instruction), es = is.map .instruction) ∧
      (st.Proper (s.names p.aliases) → (es = [] ↔ st.Idle (s.names p.aliases))) := by
  have hplace {code : Selection} {es : List Emission} {p q : Progress} {u : Unit}
      (h : (s.place l code p).Yields es (u, q)) :
      (∃ is : List (Located Instruction), es = is.map .instruction) ∧
        ∃ is, code.Gives is ∧ (es = [] ↔ is = []) := by
    obtain ⟨⟨is, his, rfl⟩, -⟩ := yields_place.mp h
    exact ⟨⟨is.map fun i => ⟨l, i.withComment s.comment⟩, by simp⟩, is, his, by simp⟩
  have hstep {op : StepOp} {e : Located Expr}
      (h : ((do s.place l (Selection.step op (← s.resolve e)) : Lowering Unit) p).Yields es
        ((), q)) :
      (∃ is : List (Located Instruction), es = is.map .instruction) ∧
        ((∀ v, ((s.names p.aliases).resolve e).outcome = .ok v → v.Proper) → es ≠ []) := by
    simp only [yields_bind_state, yields_resolve] at h
    obtain ⟨v, _, _, _, ⟨rfl, hv, rfl⟩, h, rfl⟩ := h
    obtain ⟨his, is, hgives, hnil⟩ := hplace h
    refine ⟨his, fun hp => ?_⟩
    rw [ne_eq, hnil]
    exact fun h => (Selection.idles_step (hp v hv).unmarked_ne is hgives).mp h
  cases st with
  | asm i =>
    simp only [lower, yields_discard] at h
    obtain ⟨size, h⟩ := h
    obtain ⟨m, operands, xs, -, -, hes⟩ := yields_asm h
    refine ⟨?_, fun _ => by simp [hes, Stmt.Idle]⟩
    rw [← h.1]
    exact exists_map_instruction ((s.stateless_asm (fun i => ⟨i, rfl⟩) i).emitsFrom p)
  | expr e =>
    simp only [lower] at h
    cases e with
    | assign op target value =>
      simp only [expression, yields_bind_state, yields_resolve] at h
      obtain ⟨t, _, _, _, ⟨rfl, ht, rfl⟩, ⟨v, _, _, _, ⟨rfl, hv, rfl⟩, h, rfl⟩, rfl⟩ := h
      obtain ⟨his, is, hgives, hnil⟩ := hplace h
      refine ⟨his, fun hp => ?_⟩
      rw [hnil, Selection.idles_assignBy (hp.1 t ht) (hp.2 v hv) is hgives]
      constructor
      · exact fun h => ⟨op, target, value, t, v, rfl, ht, hv, h⟩
      · rintro ⟨_, _, _, t', v', he, ht', hv', h⟩
        cases he
        obtain rfl : t = t' := Except.ok.inj (ht.symm.trans ht')
        obtain rfl : v = v' := Except.ok.inj (hv.symm.trans hv')
        exact h
    | unary op e =>
      cases op with
      | step op =>
        obtain ⟨his, hne⟩ := hstep h
        exact ⟨his, fun hp => iff_of_false (hne hp) (by simp [Stmt.Idle])⟩
      | _ => cases hs
    | suffix op e =>
      obtain ⟨his, hne⟩ := hstep h
      exact ⟨his, fun hp => iff_of_false (hne hp) (by simp [Stmt.Idle])⟩
    | _ => cases hs
  | _ => cases hs

/-- The emissions of a statement under a skip. -/
theorem lower_skip {condition : Located Expr} {yl : Location} {yes : Stmt}
    {no : Option (Located Stmt)} {v : Value} {m : Mnemonic} {a b : Operand} {es : List Emission}
    (h : (s.lower expand l (.branch condition ⟨yl, yes⟩ no) p).Yields es ((), q))
    (hv : ((s.names p.aliases).resolve condition).outcome = .ok v)
    (hno : no.all (·.value.isEmpty)) (hskip : yes.skip? v = some (m, a, b)) :
    ∃ start stop fs,
      (s.lower expand yl yes { p with probes := p.probes + 1 }).Yields fs ((), q) ∧
      fs.countP Emission.isInstruction ≤ 1 ∧
      es = .instruction ⟨l, m, [a, b], s.comment⟩ :: .label ⟨yl, start⟩ :: fs ++
        [.label ⟨yl, stop⟩, .limit ⟨start, stop, 2, yl⟩] := by
  have hjump := jump_of_isSkippable (s := s) (l := yl) (Stmt.isSkippable_of_skip hskip)
  simp only [lower, hjump, hno, if_true, yields_bind_state, yields_resolve] at h
  obtain ⟨c, _, _, _, ⟨rfl, hc, rfl⟩, h, rfl⟩ := h
  obtain rfl : v = c := Except.ok.inj (hv.symm.trans hc)
  simp only [hskip, yields_bind_state] at h
  obtain ⟨_, _, _, _, hplace, hbody, rfl⟩ := h
  obtain ⟨⟨is, his, rfl⟩, rfl⟩ := yields_place.mp hplace
  obtain ⟨start, stop, fs, hfs, hcount, rfl⟩ := Lowering.yields_limited hbody
  refine ⟨start, stop, fs, hfs, hcount, ?_⟩
  rw [Selection.gives_emit his]
  simp [Instruction.withComment]

end Scope

namespace Section

/-- The lines that take up space. -/
def code (s : Section) : List Line := s.lines.filter (!·.bytes.isEmpty)

theorem sum_code (xs : List Line) :
    ((xs.filter (!·.bytes.isEmpty)).map (·.bytes.length)).sum = (xs.map (·.bytes.length)).sum := by
  induction xs with
  | nil => rfl
  | cons x xs ih =>
    cases hx : x.bytes with
    | nil => simp [hx, ih]
    | cons => simp [hx, ih]

/-- Code follows on code without a gap. -/
theorem Fills.offset_code {s : Section} {b : Block} (h : s.Fills b) {before after : List Line}
    {x : Line} (hcode : s.code = before ++ x :: after) :
    x.offset = s.origin + (before.map (·.bytes.length)).sum := by
  obtain ⟨xs, ys, hlines, hxs, hys⟩ := List.filter_eq_append_iff.mp hcode
  obtain ⟨us, vs, rfl, hus, -⟩ := List.filter_eq_cons_iff.mp hys
  rw [h.offset (xs ++ us) x vs (by simp [hlines]), ← hxs, sum_code, List.map_append,
    List.sum_append]
  have hzero : (us.map (·.bytes.length)).sum = 0 := by
    rw [← sum_code, List.filter_eq_nil_iff.mpr (by simpa using hus)]
    rfl
  rw [hzero, Nat.add_zero]

end Section

/-- Where a skip leads that is taken, past the next line of code. -/
def Line.landing? (skip : Line) (rest : List Line) : Option Nat :=
  rest.head?.map fun x => skip.offset + skip.bytes.length + x.bytes.length

/-- A skip over at most one word leads behind it just if there is one. -/
theorem Line.landing_iff {skip : Line} {body after : List Line} (hskip : skip.bytes.length = 2)
    (hlength : body.length ≤ 1) (hbody : ∀ x ∈ body, x.bytes.length = 2)
    (hafter : ∀ x ∈ after, x.bytes ≠ []) {target : Nat}
    (h : skip.landing? (body ++ after) = some target) :
    target = skip.offset + 2 + 2 * body.length ↔ body ≠ [] := by
  obtain ⟨x, hx, rfl⟩ := Option.map_eq_some_iff.mp h
  match body with
  | [] =>
    have hne := hafter x (List.mem_of_head? hx)
    have : x.bytes.length ≠ 0 := by simpa using hne
    simp only [hskip, List.length_nil, ne_eq, not_true_eq_false, iff_false]
    omega
  | [y] =>
    obtain rfl : y = x := by simpa using hx
    simp [hskip, hbody y (by simp)]
  | _ :: _ :: _ => simp at hlength

/-- The line is that of the instruction. -/
def Line.Shows (x : Line) (i : Instruction) : Prop :=
  ∃ resolved, x.content = .instruction i resolved

namespace Layout

theorem Places.instructions {l : Layout} {linker : Bool} {start : Nat}
    {is : List (Located Instruction)} {es : List Emission} {zs : List Line}
    (h : l.Places linker start (is.map .instruction ++ es) zs) :
    ∃ xs ys, List.Forall₂ (fun x i => x.Shows i.value ∧ x.bytes.length = i.value.size) xs is ∧
      l.Places linker (start + Emission.sizes (is.map .instruction)) es ys ∧ zs = xs ++ ys := by
  induction is generalizing start zs with
  | nil => exact ⟨[], zs, .nil, h, rfl⟩
  | cons i is ih =>
    obtain ⟨x, ys, r, -, hcontent, hr, hrest, rfl⟩ := Places.instruction h
    obtain ⟨xs, ys, hxs, hys, rfl⟩ := ih hrest
    refine ⟨x :: xs, ys, .cons ⟨⟨r, hcontent⟩, length_resolveInstruction hr⟩ hxs, ?_, rfl⟩
    simpa [Nat.add_assoc] using hys

/-- The lines of a skip and of what is under it. -/
theorem Places.skip {l : Layout} {linker : Bool} {start : Nat} {i : Located Instruction}
    {first last : Located String} {is : List (Located Instruction)} {s : SizeLimit}
    {zs : List Line}
    (h : l.Places linker start
      (.instruction i :: .label first :: is.map .instruction ++ [.label last, .limit s]) zs) :
    ∃ skip body, zs.filter (!·.bytes.isEmpty) = skip :: body ∧
      (skip.Shows i.value ∧ skip.bytes.length = i.value.size) ∧
      List.Forall₂ (fun x i => x.Shows i.value ∧ x.bytes.length = i.value.size) body is ∧
      ∃ a, l.labels.lookup first.value = some a ∧
        l.labels.lookup last.value = some (a + Emission.sizes (is.map .instruction)) := by
  obtain ⟨skip, _, r, -, hcontent, hr, h₁, rfl⟩ := Places.instruction h
  obtain ⟨hfirst, x, _, hx, h₂, rfl⟩ := Places.label h₁
  obtain ⟨body, _, hbody, h₃, rfl⟩ := Places.instructions h₂
  obtain ⟨hlast, y, _, hy, h₄, rfl⟩ := Places.label h₃
  cases h₄.limit.nil
  have hskip := length_resolveInstruction hr
  have hsize (i : Instruction) : i.size ≠ 0 := by
    unfold Instruction.size Mnemonic.size
    split <;> simp
  refine ⟨skip, body, ?_, ⟨⟨r, hcontent⟩, hskip⟩, hbody, _, hfirst, hlast⟩
  have hne : skip.bytes ≠ [] := fun h => hsize i.value (by simpa [h] using hskip.symm)
  have hkeep : body.filter (!·.bytes.isEmpty) = body := by
    refine List.filter_eq_self.mpr fun z hz => ?_
    obtain ⟨j, -, -, hj⟩ := mem_of_forall₂ hbody.flip hz
    have : z.bytes ≠ [] := fun h => hsize j.value (by simpa [h] using hj.symm)
    simpa using this
  simp [hne, hx, hkeep, hy]

end Layout

theorem Mnemonic.size_cases (m : Mnemonic) : m.size = 2 ∨ m.size = 4 := by
  cases m <;> simp [size]

namespace Stmt

theorem size_of_skip {st : Stmt} {v : Value} {m : Mnemonic} {a b : Operand}
    (h : st.skip? v = some (m, a, b)) : m.size = 2 := by
  simp only [skip?, skip?.skipReg, skip?.skipIo] at h
  split at h <;> simp at h <;> obtain ⟨-, rfl, -⟩ := h <;> rfl

end Stmt

/-- A skip in front of a statement is followed by the code of that statement, which is at most one
instruction of one word, and then by the code after it. A skip that is taken leads to the code after
the statement, unless the statement is an assignment without code; then it passes over the first
instruction after it. -/
theorem skip_passes_statement (device : Device) (program : Program) (formats : List Format)
    (options : OutputOptions) (linker : Bool) (c : Compiled) (listing : Listing) (s : Scope)
    (expand : Location → Procedure → Scope → Lowering Unit) (l yl : Location)
    (condition : Located Expr) (yes : Stmt) (no : Option (Located Stmt)) (p q : Progress)
    (es : List Emission) (v : Value) (m : Mnemonic) (a b : Operand) (hformats : formats ≠ [])
    (hcompile : compile device program (.ofFormats formats options) = .ok c)
    (hresolve : c.outputs.layout.resolve linker = .ok listing)
    (hlower : (s.lower expand l (.branch condition ⟨yl, yes⟩ no) p).Yields es ((), q))
    (hpart : es <:+:
      (program.lower device (Outputs.ofFormats formats options).linksExternals).emitted)
    (hcondition : ((s.names p.aliases).resolve condition).outcome = .ok v)
    (hno : no.all (·.value.isEmpty)) (hskip : yes.skip? v = some (m, a, b)) :
    ∃ sec ∈ listing.sections, ∃ before skip body after,
      sec.code = before ++ skip :: (body ++ after) ∧
      (skip.Shows ⟨m, [a, b], s.comment⟩ ∧ skip.bytes.length = 2) ∧
      (∃ is, (s.lower expand yl yes { p with probes := p.probes + 1 }).emitted =
          is.map .instruction ∧
        List.Forall₂ (fun x i => x.Shows i.value ∧ x.bytes.length = 2) body is) ∧
      body.length ≤ 1 ∧
      (yes.Proper (s.names p.aliases) → (body = [] ↔ yes.Idle (s.names p.aliases))) ∧
      (∀ x ∈ after.head?, x.offset = skip.offset + 2 + 2 * body.length) ∧
      ∀ target ∈ skip.landing? (body ++ after),
        (target = skip.offset + 2 + 2 * body.length ↔ body ≠ []) := by
  obtain ⟨first, last, fs, hfs, hcount, rfl⟩ := Scope.lower_skip hlower hcondition hno hskip
  obtain ⟨⟨is, rfl⟩, hidle⟩ := Scope.lower_isSkippable (Stmt.isSkippable_of_skip hskip) hfs
  have his : is.length ≤ 1 := by
    simpa [List.countP_map, Function.comp_def, Emission.isInstruction] using hcount
  have happly := compile_applyAll hformats hcompile
  obtain ⟨_, _, hemitted⟩ := hpart
  rw [← hemitted] at happly
  have hinPlace : ∀ e ∈ Emission.instruction ⟨l, m, [a, b], s.comment⟩ :: .label ⟨yl, first⟩ ::
      is.map .instruction ++ [.label ⟨yl, last⟩, .limit ⟨first, last, 2, yl⟩], e.InPlace := by
    simp only [List.mem_append, List.mem_cons, List.mem_map, List.not_mem_nil, or_false]
    rintro e ((rfl | rfl | ⟨i, -, rfl⟩) | rfl | rfl) <;> trivial
  obtain ⟨start, xs, hplaces, hlines⟩ := Layout.exists_places happly hinPlace hresolve
  obtain ⟨skip, body, hcode, hshows, hbody, address, hfirst, hlast⟩ := hplaces.skip
  have hlimit := Layout.checkLimit_of_mem happly hresolve (s := ⟨first, last, 2, yl⟩) (by simp)
  have hsizes : Emission.sizes (is.map .instruction) ≤ 2 := by
    simp only [Layout.checkLimit, hfirst, hlast] at hlimit
    split at hlimit
    · cases hlimit
    · omega
  have hword : ∀ i ∈ is, i.value.size = 2 := by
    intro i hi
    obtain ⟨before, after, rfl⟩ := List.append_of_mem hi
    simp only [List.map_append, List.map_cons, Emission.sizes_append,
      Emission.sizes_instruction] at hsizes
    have := i.value.mnemonic.size_cases
    simp only [Instruction.size] at hsizes ⊢
    omega
  have hbody : List.Forall₂ (fun x i => x.Shows i.value ∧ x.bytes.length = 2) body is := by
    refine List.Forall₂.flip (((List.forall₂_and_left _ _).mpr ⟨hword, hbody.flip⟩).imp ?_)
    rintro i x ⟨hi, hx, hlength⟩
    exact ⟨hx, hlength.trans hi⟩
  have hbytes : ∀ x ∈ body, x.bytes.length = 2 := by
    intro x hx
    obtain ⟨i, -, -, hlength⟩ := mem_of_forall₂ hbody.flip hx
    exact hlength
  have hlength : (body.map (·.bytes.length)).sum = 2 * body.length := by
    rw [List.map_congr_left hbytes]
    simp [Nat.mul_comm]
  obtain ⟨sec, hsec, pre, post, hsplit⟩ := hlines (by rintro rfl; cases hcode)
  have hstream : sec.code = pre.filter (!·.bytes.isEmpty) ++
      skip :: (body ++ post.filter (!·.bytes.isEmpty)) := by
    simp [Section.code, hsplit, hcode]
  obtain ⟨block, hblock, hr⟩ := mem_of_forall₂ (Layout.resolve_ok hresolve).1 hsec
  have hfills := (Layout.resolveBlock_fills
    ((Layout.sound_empty.applyAll happly).counted block hblock) hr).1
  have hskipLength : skip.bytes.length = 2 := hshows.2.trans (Stmt.size_of_skip hskip)
  refine ⟨sec, hsec, _, skip, body, _, hstream, ⟨hshows.1, hskipLength⟩, ⟨is, hfs.1, hbody⟩,
    hbody.length_eq ▸ his, ?_, ?_, ?_⟩
  · intro hp
    rw [← hidle hp, List.map_eq_nil_iff, ← List.length_eq_zero_iff, ← List.length_eq_zero_iff,
      hbody.length_eq]
  · intro x hx
    obtain ⟨rest, hrest⟩ := List.head?_eq_some_iff.mp hx
    rw [hrest] at hstream
    have hskipOffset := hfills.offset_code hstream
    rw [← List.cons_append, ← List.append_assoc] at hstream
    rw [hfills.offset_code hstream, hskipOffset]
    simp [hlength, hskipLength]
    omega
  · intro target htarget
    refine Line.landing_iff hskipLength (hbody.length_eq ▸ his) hbytes ?_ htarget
    intro x hx
    simpa using (List.mem_filter.mp hx).2

namespace SkipSample

open Sample

/-- `r16[0]` -/
def condition : Located Expr := at1 (.index (at1 (.ident "r16")) (at1 (.number 0)))

/-- `r17 = r17`, for which there is no code. -/
def body : Stmt := .expr (.assign .set (at1 (.ident "r17")) (at1 (.ident "r17")))

def main : Procedure where
  name := at1 "main"
  params := []
  body := [at1 (.branch condition (at1 body) none),
    at1 (.asm ⟨at1 "inc", [at1 (.ident "r18")]⟩)]
  inline := false

def program : Program := { vectors := none, items := [at1 (.procedure main)] }

def scope : Scope :=
  { globals := { device := sampleDevice, procedures := [main] }, procedure := some main }

def lowered : Trace (Unit × Progress) :=
  scope.lower (Scope.expandUpTo 1) (.point "a" 1 1) (.branch condition (at1 body) none) {}

def listing : Checked Listing := do
  let c ← compile sampleDevice program (.ofFormats [.hex] {})
  c.outputs.layout.resolve false

theorem listing_bytes :
    listing.toOption.map (·.sections.map (·.code.map fun x => (x.offset, x.bytes))) =
      some [[(0, [0, 253]), (2, [35, 149])]] := by
  decide +kernel

theorem resolve_condition :
    ((scope.names []).resolve condition).outcome = .ok (.regBit ⟨16⟩ 0) := by
  decide +kernel

theorem resolve_body :
    ((scope.names []).resolve (at1 (.ident "r17"))).outcome = .ok (.reg ⟨17⟩) := by
  decide +kernel

theorem lowered_part : lowered.emitted <:+: (program.lower sampleDevice false).emitted :=
  ⟨[.label (at1 "main"), .declare "main" .global],
    [.instruction (at1 { mnemonic := .inc, operands := [.reg ⟨18⟩] })], by with_unfolding_all rfl⟩

theorem lowered_outcome : lowered.outcome = .ok ((), { probes := 1 }) := by
  with_unfolding_all rfl

theorem body_proper : body.Proper (scope.names []) := by
  have h (v : Value) (hv : ((scope.names []).resolve (at1 (.ident "r17"))).outcome = .ok v) :
      v.Proper := by
    rw [resolve_body] at hv
    cases hv
    trivial
  exact ⟨h, h⟩

theorem body_idle : body.Idle (scope.names []) :=
  ⟨.set, _, _, .reg ⟨17⟩, .reg ⟨17⟩, rfl, resolve_body, resolve_body, .kept (.reg ⟨17⟩)⟩

end SkipSample

open SkipSample in
/-- The skip in front of `r17 = r17` passes over what comes after. -/
theorem skip_passes_statement_idle :
    ∃ c listing, compile sampleDevice SkipSample.program (.ofFormats [.hex] {}) = .ok c ∧
      c.outputs.layout.resolve false = .ok listing ∧
      ∃ sec ∈ listing.sections, ∃ before skip after,
        sec.code = before ++ skip :: after ∧
        skip.Shows ⟨.sbrc, [.reg ⟨16⟩, .number 0], none⟩ ∧
        (∀ x ∈ after.head?, x.offset = skip.offset + 2) ∧
        ∀ target ∈ skip.landing? after, target ≠ skip.offset + 2 := by
  obtain ⟨listing, hl, -⟩ := Option.map_eq_some_iff.mp listing_bytes
  have hl : SkipSample.listing = .ok listing := Outcome.eq_ok_of_toOption hl
  obtain ⟨c, hc, hr⟩ := bind_ok.mp hl
  obtain ⟨sec, hsec, before, skip, body, after, hcode, hskip, -, -, hidle, hoffset, hlanding⟩ :=
    skip_passes_statement sampleDevice SkipSample.program [.hex] {} false c listing scope
      (Scope.expandUpTo 1) (.point "a" 1 1) (.point "a" 1 1) condition SkipSample.body none {}
      { probes := 1 } lowered.emitted (.regBit ⟨16⟩ 0) .sbrc (.reg ⟨16⟩) (.number 0) (by simp) hc hr
      ⟨rfl, lowered_outcome⟩ lowered_part resolve_condition rfl rfl
  obtain rfl := (hidle body_proper).mpr body_idle
  refine ⟨c, listing, hc, hr, sec, hsec, before, skip, after, hcode, hskip.1, hoffset, ?_⟩
  intro target htarget heq
  exact (hlanding target htarget).mp heq rfl

end Avr
