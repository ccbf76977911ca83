import Avr.Compile
import Avr.Proofs.SecondPass
import Avr.Proofs.StatementEmissions

namespace Avr

open Trace Emission

namespace Emission

/-- Leads to an even address, if it leads anywhere. -/
def Aligned : Emission → Prop
  | org origin => origin % 2 = 0
  | _ => True

theorem InPlace.aligned {e : Emission} (h : e.InPlace) : e.Aligned := by
  cases e with
  | org origin => exact absurd h id
  | _ => trivial

end Emission

namespace Build

variable {P : Emission → Prop}

@[simp] theorem emits_takeOrigin : EmitsFrom P takeOrigin :=
  emitsFrom_bind (by simp) (fun b => emitsFrom_bind (by simp) (fun _ => by simp))

@[simp] theorem emits_rejectOrigin : EmitsFrom P rejectOrigin := by
  refine emitsFrom_bind (by simp) (fun o => ?_)
  cases o <;> simp

/-- The only place where an address is chosen. -/
theorem aligned_placeCode : EmitsFrom Aligned placeCode := by
  refine emitsFrom_bind (by simp) (fun o => ?_)
  cases o with
  | none => simp
  | some o =>
    refine emitsFrom_require (fun h => emitsFrom_lift ?_)
    simpa [Aligned] using h

theorem emits_placeVariable : EmitsFrom P placeVariable := by
  refine emitsFrom_bind (by simp) (fun o => ?_)
  cases o with
  | none => simp
  | some o =>
    refine emitsFrom_bind (by simp) (fun b => emitsFrom_bind (by simp) (fun last => ?_))
    exact emitsFrom_bind (by simp) (fun _ => by simp)

theorem emits_directive (name : Located String) (args : List (Located Expr)) :
    EmitsFrom P (directive name args) := by
  unfold directive
  split
  · refine emitsFrom_bind (by simp) (fun _ => emitsFrom_bind (by simp) (fun b => ?_))
    refine emitsFrom_bind (by simp) (fun k => emitsFrom_bind (by simp) (fun _ => by simp))
  · simp

theorem emits_counting {part : Globals → Lowering Unit} (hP : ∀ e : Emission, e.InPlace → P e)
    (h : ∀ g, EmitsFrom InPlace (part g)) : EmitsFrom P (counting part) := by
  refine emitsFrom_bind (by simp) (fun b => emitsFrom_bind (emitsFrom_lift ?_) (fun p => by simp))
  intro e he
  exact hP e (h _ _ e he)

theorem aligned_procedure (p : Procedure) : EmitsFrom Aligned (procedure p) := by
  unfold procedure
  split
  · simp
  · refine emitsFrom_bind aligned_placeCode (fun _ => ?_)
    refine emitsFrom_bind (by simp [define, Aligned]) (fun _ => ?_)
    refine emitsFrom_bind (by simp [Aligned]) (fun _ => ?_)
    exact emits_counting (fun _ => InPlace.aligned) (fun g => Scope.inPlace_lowerBody _ _)

theorem emits_declareVariable (decl : VarDecl) : EmitsFrom P (declareVariable decl) := by
  have hlength (n : Names) (e : Option (Located Expr)) : Emits P (arrayLength n e) := by
    cases e with
    | none => simp [arrayLength]
    | some e => exact emits_bind (by simp) (fun k => emits_bind (by simp) (fun _ => by simp))
  refine emitsFrom_bind emits_placeVariable (fun _ => emitsFrom_bind (by simp) (fun b => ?_))
  refine emitsFrom_bind (by simp) (fun _ => ?_)
  refine emitsFrom_bind (emitsFrom_lift (hlength _ _)) (fun k => ?_)
  exact emitsFrom_bind (by simp) (fun _ => by simp)

theorem emits_declareExternal (hP : ∀ name, P (.declare name .external)) (decl : VarDecl) :
    EmitsFrom P (declareExternal decl) := by
  refine emitsFrom_bind (by simp) (fun _ => emitsFrom_bind (by simp) (fun b => ?_))
  refine emitsFrom_bind (by simp [requireLinker]) (fun _ => emitsFrom_bind (by simp) (fun _ => ?_))
  exact emitsFrom_bind (by simp [hP]) (fun _ => by simp)

theorem emits_declarePin (name target : Located String) :
    EmitsFrom P (declarePin name target) := by
  refine emitsFrom_bind (by simp) (fun _ => emitsFrom_bind (by simp) (fun b => ?_))
  refine emitsFrom_bind (by simp) (fun p => emitsFrom_bind (by simp) (fun _ => ?_))
  split
  · exact emitsFrom_bind (by simp) (fun _ => by simp)
  · simp

theorem emits_declareAlias (a : Alias) : EmitsFrom P (declareAlias a) := by
  refine emitsFrom_bind (by simp) (fun _ => emitsFrom_bind (by simp) (fun b => ?_))
  exact emitsFrom_bind (by simp) (fun _ => by simp)

theorem aligned_item (i : Located Item) : EmitsFrom Aligned (item i) := by
  unfold item
  split
  · exact emits_directive _ _
  · exact aligned_procedure _
  · simp
  · exact emits_declareVariable _
  · exact emits_declareExternal (by simp [Aligned]) _
  · exact emits_declarePin _ _
  · exact emits_declareAlias _
  · exact emitsFrom_bind aligned_placeCode (fun _ => by simp [define, Aligned])
  · refine emitsFrom_bind aligned_placeCode (fun _ => emitsFrom_bind (by simp) (fun b => ?_))
    exact emitsFrom_bind (by simp) (fun row => by simp [Aligned])

theorem emits_declareProcedure (hP : ∀ name, P (.declare name .external)) (p : Procedure)
    (isExternal : Bool) : EmitsFrom P (declareProcedure p isExternal) := by
  refine emitsFrom_bind (by simp) (fun b => emitsFrom_bind (by simp) (fun _ => ?_))
  split
  · refine emitsFrom_bind (by simp [requireLinker]) (fun _ => ?_)
    exact emitsFrom_bind (by simp [hP]) (fun _ => by simp)
  · simp

theorem emits_declareProcedures (hP : ∀ name, P (.declare name .external))
    (items : List (Located Item)) : EmitsFrom P (declareProcedures items) := by
  refine emitsFrom_forM (fun i _ => ?_)
  split
  · exact emits_declareProcedure hP _ _
  · exact emits_declareProcedure hP _ _
  · simp

theorem aligned_program (p : Program) : EmitsFrom Aligned (program p) := by
  have hitems : EmitsFrom Aligned (do p.items.forM item; rejectOrigin) :=
    emitsFrom_bind (emitsFrom_forM (fun i _ => aligned_item i)) (fun _ => by simp)
  refine emitsFrom_bind (emits_declareProcedures (by simp [Aligned]) _) (fun _ => ?_)
  simp only
  split
  · refine emitsFrom_bind (emits_counting (fun _ => InPlace.aligned) (fun g => ?_)) (fun _ => ?_)
    · exact g.inPlace_vectors _
    · exact hitems
  · exact hitems

end Build

theorem Program.aligned_lower (p : Program) (device : Device) (links : Bool) :
    Emits Aligned (p.lower device links) :=
  emits_map _ (Build.aligned_program p _)

namespace Layout

def EvenOrigins (l : Layout) : Prop := ∀ b ∈ l.blocks, b.origin % 2 = 0

theorem EvenOrigins.push {l : Layout} (h : l.EvenOrigins) (e : Entry) :
    (l.push e).EvenOrigins := by
  intro b hb
  rw [blocks_push] at hb
  rcases List.mem_append.mp hb with hm | hm
  · exact h b (List.mem_append_left _ hm)
  · rw [List.mem_singleton.mp hm]
    change l.last.origin % 2 = 0
    unfold last
    cases hc : l.current with
    | none => rfl
    | some c => exact h c (by simp [blocks, hc])

theorem EvenOrigins.org {l : Layout} (h : l.EvenOrigins) {origin : Nat} (ho : origin % 2 = 0) :
    (l.org origin).EvenOrigins := by
  obtain ⟨bs, b, hb, hbo, _, hold⟩ := l.blocks_org origin
  have hbs : ∀ c ∈ bs, c ∈ l.blocks := by
    intro c hc
    rcases hold with ⟨he, _⟩ | ⟨d, he, _⟩
    · rwa [he]
    · rw [he]
      exact List.mem_append_left _ hc
  intro c hc
  rw [hb] at hc
  rcases List.mem_append.mp hc with hm | hm
  · exact h c (hbs c hm)
  · rw [List.mem_singleton.mp hm, hbo]
    exact ho

theorem EvenOrigins.apply {l m : Layout} {e : Emission} (h : l.EvenOrigins) (he : e.Aligned)
    (hm : l.apply e = .ok m) : m.EvenOrigins := by
  cases e with
  | org origin => cases hm; exact h.org he
  | label name =>
    simp only [Layout.apply, Layout.label] at hm
    split at hm
    · cases hm
    · cases hm
      exact h.push (.label name)
  | instruction i => cases hm; exact h.push _
  | data d => cases hm; exact h.push _
  | limit s => cases hm; exact h
  | declare symbol linkage => cases hm; exact h

end Layout

namespace Outputs

open Outcome

/-- The layout goes through the calls of the first pass, if any format needs it. -/
theorem emit_layout {o p : Outputs} {e : Emission} (h : o.emit e = .ok p) :
    p.layout = o.layout ∨ o.layout.apply e = .ok p.layout := by
  unfold emit at h
  split at h
  · cases h
    exact .inl rfl
  · right
    cases e with
    | label name =>
      obtain ⟨l, hl, h⟩ := Outcome.bind_ok.mp h
      cases h
      exact hl
    | declare symbol linkage => cases h; cases linkage <;> rfl
    | _ => cases h; rfl

/-- What every call keeps holds of the finished layout. -/
theorem emitAll_keeps {Q : Layout → Prop} {es : List Emission} {o p : Outputs}
    (hstep : ∀ e ∈ es, ∀ l m, Q l → l.apply e = .ok m → Q m) (ho : Q o.layout)
    (h : o.emitAll es = .ok p) : Q p.layout := by
  induction es generalizing o with
  | nil =>
    cases h
    exact ho
  | cons e es ih =>
    simp only [emitAll, List.foldlM_cons] at h
    obtain ⟨q, hq, h⟩ := Outcome.bind_ok.mp h
    refine ih (fun e he => hstep e (by simp [he])) ?_ h
    rcases emit_layout hq with hl | hl
    · rw [hl]
      exact ho
    · exact hstep e (by simp) _ _ ho hl

end Outputs

theorem compile_emitAll {device : Device} {program : Program} {outputs : Outputs} {c : Compiled}
    (h : compile device program outputs = .ok c) :
    outputs.emitAll (program.lower device outputs.linksExternals).emitted = .ok c.outputs := by
  unfold compile at h
  simp only [Outcome.bind_ok, Outcome.pure_ok] at h
  obtain ⟨o, ho, _, _, rfl⟩ := h
  exact ho

/-- Every block of a compiled program is counted right and starts at an even address. -/
theorem compile_layout {device : Device} {program : Program} {formats : List Format}
    {options : OutputOptions} {c : Compiled}
    (h : compile device program (.ofFormats formats options) = .ok c) :
    c.outputs.layout.Sound ∧ c.outputs.layout.EvenOrigins := by
  have hemit := compile_emitAll h
  constructor
  · exact Outputs.emitAll_keeps (fun e _ l m hl hm => hl.apply hm) Layout.sound_empty hemit
  · refine Outputs.emitAll_keeps (Q := Layout.EvenOrigins) ?_ (by intro b hb; cases hb) hemit
    intro e he l m hl hm
    exact hl.apply (program.aligned_lower _ _ e he) hm

theorem Entry.even_size (e : Entry) : e.size % 2 = 0 := by
  cases e with
  | label n => rfl
  | instruction i =>
    change i.value.mnemonic.size % 2 = 0
    unfold Mnemonic.size
    split <;> rfl
  | data d =>
    change d.value.size % 2 = 0
    unfold Data.size
    omega

theorem Line.even_lengths {xs : List Line} {es : List Entry} (h : List.Forall₂ Line.Fills xs es) :
    ∀ x ∈ xs, x.bytes.length % 2 = 0 := by
  induction h with
  | nil => simp
  | cons hf _ ih =>
    intro x hx
    rcases List.mem_cons.mp hx with rfl | hx
    · rw [hf.length]
      exact Entry.even_size _
    · exact ih x hx

theorem Line.even_sum {xs : List Line} (h : ∀ x ∈ xs, x.bytes.length % 2 = 0) :
    (xs.map (·.bytes.length)).sum % 2 = 0 := by
  induction xs with
  | nil => rfl
  | cons x xs ih =>
    have hx := h x (by simp)
    have hxs := ih fun y hy => h y (by simp [hy])
    simp only [List.map_cons, List.sum_cons]
    omega

theorem Section.Fills.even_offset {s : Section} {b : Block} (h : s.Fills b)
    (hb : b.origin % 2 = 0) : ∀ x ∈ s.lines, x.offset % 2 = 0 := by
  intro x hx
  obtain ⟨before, after, hs⟩ := List.append_of_mem hx
  have hbefore : ∀ y ∈ before, y.bytes.length % 2 = 0 :=
    fun y hy => Line.even_lengths h.lines y (by simp [hs, hy])
  have hsum := Line.even_sum hbefore
  rw [h.offset before x after hs, h.origin]
  omega

end Avr
