import Avr.Proofs.Placement

namespace Avr

open Outcome

/-- A format with an assembly of its own. -/
structure Backend where
  format : Format
  layout : Layout := {}
  externals : Array String := #[]
  globals : Array String := #[]

namespace Backend

/-- Only a format that is linked keeps declarations. -/
def declare (b : Backend) (symbol : String) (linkage : Linkage) : Backend :=
  match b.format.linksExternals, linkage with
  | true, .external => { b with externals := Outputs.withSymbol b.externals symbol }
  | true, .global => { b with globals := Outputs.withSymbol b.globals symbol }
  | false, _ => b

def apply (b : Backend) : Emission → Checked Backend
  | .declare symbol linkage => .ok (b.declare symbol linkage)
  | e => do return { b with layout := ← b.layout.apply e }

/-- The artifact, from nothing but what the backend itself holds. -/
def finish (b : Backend) (options : OutputOptions) : Checked (Format × Artifact) := do
  let alone : Outputs :=
    { formats := [b.format], options, layout := b.layout, externals := b.externals
      globals := b.globals }
  return (b.format, ← alone.artifact b.format)

/-- The selected formats, before anything is emitted. -/
def ofFormats (formats : List Format) : List Backend :=
  (Format.all.filter (· ∈ formats)).map fun format => { format }

/-- Tells all backends of an emission, one after the other. Where one fails, those before it have
taken the emission and those after it never see it. -/
def emit (e : Emission) : List Backend → List Backend × Option (Located Error)
  | [] => ([], none)
  | b :: bs =>
    match b.apply e with
    | .error fault => (b :: bs, some fault)
    | .ok next => (next :: (emit e bs).1, (emit e bs).2)

/-- All emissions, whichever of them fail. -/
def run (bs : List Backend) (es : List Emission) : List Backend :=
  es.foldl (fun bs e => (emit e bs).1) bs

end Backend

namespace Outputs

/-- The outputs after an emission. One that fails leaves them as they were. -/
def attempt (o : Outputs) (e : Emission) : Outputs :=
  match o.emit e with
  | .ok next => next
  | .error _ => o

def run (o : Outputs) (es : List Emission) : Outputs := es.foldl attempt o

/-- The backend holds what the outputs hold for all formats together. -/
structure Feeds (o : Outputs) (b : Backend) : Prop where
  layout : b.layout = o.layout
  externals : b.format.linksExternals → b.externals = o.externals
  globals : b.format.linksExternals → b.globals = o.globals

/-- There is one backend for each format. -/
structure Mirrors (o : Outputs) (bs : List Backend) : Prop where
  formats : bs.map Backend.format = o.formats
  feeds : ∀ b ∈ bs, o.Feeds b

theorem mirrors_ofFormats (formats : List Format) (options : OutputOptions) :
    (ofFormats formats options).Mirrors (Backend.ofFormats formats) := by
  constructor
  · simp [Backend.ofFormats, ofFormats, Function.comp_def]
  · intro b hb
    obtain ⟨f, _, rfl⟩ := List.mem_map.mp hb
    exact ⟨rfl, fun _ => rfl, fun _ => rfl⟩

theorem Feeds.declare {o : Outputs} {b : Backend} (h : o.Feeds b) (symbol : String)
    (linkage : Linkage) :
    (o.declare symbol linkage).Feeds (b.declare symbol linkage) ∧
      (b.declare symbol linkage).format = b.format := by
  have hl := h.layout
  unfold Backend.declare
  cases hf : b.format.linksExternals with
  | false =>
    have hnot {p : Prop} : b.format.linksExternals → p := by
      rw [hf]
      exact nofun
    cases linkage <;> exact ⟨⟨hl, hnot, hnot⟩, rfl⟩
  | true =>
    have he := congrArg (withSymbol · symbol) (h.externals hf)
    have hg := congrArg (withSymbol · symbol) (h.globals hf)
    cases linkage with
    | external => exact ⟨⟨hl, fun _ => he, h.globals⟩, rfl⟩
    | global => exact ⟨⟨hl, h.externals, fun _ => hg⟩, rfl⟩

/-- A backend takes an emission exactly as the outputs do. -/
theorem Feeds.apply {o : Outputs} {b : Backend} (h : o.Feeds b) (ho : o.formats.isEmpty = false)
    (e : Emission) :
    (∃ p c, o.emit e = .ok p ∧ b.apply e = .ok c ∧ p.Feeds c ∧ c.format = b.format) ∨
      ∃ fault, o.emit e = .error fault ∧ b.apply e = .error fault := by
  have hl := h.layout
  simp only [emit, ho, Bool.false_eq_true, if_false]
  cases e with
  | label name =>
    simp only [Backend.apply, Layout.apply, hl]
    cases o.layout.label name with
    | error fault => exact .inr ⟨fault, rfl, rfl⟩
    | ok next => exact .inl ⟨_, _, rfl, rfl, ⟨rfl, h.externals, h.globals⟩, rfl⟩
  | declare symbol linkage => exact .inl ⟨_, _, rfl, rfl, h.declare symbol linkage⟩
  | org origin =>
    exact .inl ⟨_, _, rfl, rfl, ⟨congrArg (·.org origin) hl, h.externals, h.globals⟩, rfl⟩
  | instruction i =>
    exact .inl ⟨_, _, rfl, rfl, ⟨congrArg (·.instruction i) hl, h.externals, h.globals⟩, rfl⟩
  | data d =>
    exact .inl ⟨_, _, rfl, rfl, ⟨congrArg (·.data d) hl, h.externals, h.globals⟩, rfl⟩
  | limit s =>
    exact .inl ⟨_, _, rfl, rfl, ⟨congrArg (·.limit s) hl, h.externals, h.globals⟩, rfl⟩

/-- An emission changes neither the formats nor their options. -/
theorem emit_selection {o p : Outputs} {e : Emission} (h : o.emit e = .ok p) :
    p.formats = o.formats ∧ p.options = o.options := by
  unfold emit at h
  split at h
  · cases h
    exact ⟨rfl, rfl⟩
  · cases e with
    | label name =>
      obtain ⟨l, _, h⟩ := bind_ok.mp h
      cases h
      exact ⟨rfl, rfl⟩
    | declare symbol linkage =>
      cases h
      cases linkage <;> exact ⟨rfl, rfl⟩
    | _ =>
      cases h
      exact ⟨rfl, rfl⟩

theorem run_selection (o : Outputs) (es : List Emission) :
    (o.run es).formats = o.formats ∧ (o.run es).options = o.options := by
  induction es generalizing o with
  | nil => exact ⟨rfl, rfl⟩
  | cons e es ih =>
    obtain ⟨hformats, hoptions⟩ := ih (o.attempt e)
    have hattempt : (o.attempt e).formats = o.formats ∧ (o.attempt e).options = o.options := by
      unfold attempt
      split
      · next h => exact emit_selection h
      · exact ⟨rfl, rfl⟩
    exact ⟨hformats.trans hattempt.1, hoptions.trans hattempt.2⟩

/-- Backends that hold the same take the same. -/
theorem Feeds.emit {o p : Outputs} (ho : o.formats.isEmpty = false) {e : Emission}
    (hp : o.emit e = .ok p) {bs : List Backend} (h : ∀ b ∈ bs, o.Feeds b) :
    (Backend.emit e bs).2 = none ∧ (∀ b ∈ (Backend.emit e bs).1, p.Feeds b) ∧
      (Backend.emit e bs).1.map Backend.format = bs.map Backend.format := by
  induction bs with
  | nil => exact ⟨rfl, by simp [Backend.emit], rfl⟩
  | cons b bs ih =>
    obtain ⟨hresult, hall, hformats⟩ := ih (fun c hc => h c (by simp [hc]))
    rcases (h b (by simp)).apply ho e with ⟨q, c, hq, hc, hfeeds, hformat⟩ | ⟨fault, hq, _⟩
    · obtain rfl : p = q := Except.ok.inj (hp.symm.trans hq)
      simp only [Backend.emit, hc]
      refine ⟨hresult, ?_, by simp [hformat, hformats]⟩
      intro d hd
      rcases List.mem_cons.mp hd with rfl | hd
      · exact hfeeds
      · exact hall d hd
    · rw [hp] at hq
      cases hq

/-- What the outputs refuse the first backend refuses, so that no backend gets ahead of another. -/
theorem Mirrors.emit {o : Outputs} {bs : List Backend} (h : o.Mirrors bs) (e : Emission) :
    (∃ p, o.emit e = .ok p ∧ (Backend.emit e bs).2 = none ∧ p.Mirrors (Backend.emit e bs).1) ∨
      ∃ fault, o.emit e = .error fault ∧ Backend.emit e bs = (bs, some fault) := by
  cases bs with
  | nil =>
    have hnone : o.formats.isEmpty := by rw [← h.formats]; rfl
    exact .inl ⟨o, by simp only [Outputs.emit, hnone, if_true], rfl, h⟩
  | cons b bs =>
    have hsome : o.formats.isEmpty = false := by rw [← h.formats]; rfl
    rcases (h.feeds b (by simp)).apply hsome e with ⟨p, c, hp, _⟩ | ⟨fault, hp, hb⟩
    · obtain ⟨hresult, hfeeds, hformats⟩ := Feeds.emit hsome hp h.feeds
      exact .inl ⟨p, hp, hresult, by rw [hformats, h.formats, (emit_selection hp).1], hfeeds⟩
    · exact .inr ⟨fault, hp, by simp only [Backend.emit, hb]⟩

/-- One emission, taken or refused, keeps the backends equal to the outputs. -/
theorem Mirrors.attempt {o : Outputs} {bs : List Backend} (h : o.Mirrors bs) (e : Emission) :
    (o.attempt e).Mirrors (Backend.emit e bs).1 := by
  unfold Outputs.attempt
  rcases h.emit e with ⟨p, hp, _, hmirrors⟩ | ⟨fault, hp, hb⟩
  · simpa only [hp] using hmirrors
  · simpa only [hp, hb] using h

theorem Mirrors.run {o : Outputs} {bs : List Backend} (h : o.Mirrors bs) (es : List Emission) :
    (o.run es).Mirrors (Backend.run bs es) := by
  induction es generalizing o bs with
  | nil => exact h
  | cons e es ih => exact ih (h.attempt e)

/-- What a format writes depends on no other format. -/
theorem Feeds.finish {o : Outputs} {b : Backend} (h : o.Feeds b) :
    b.finish o.options = do return (b.format, ← o.artifact b.format) := by
  unfold Backend.finish artifact
  rw [h.layout]
  cases hf : b.format with
  | gcc => rw [h.externals (by rw [hf]; rfl), h.globals (by rw [hf]; rfl)]
  | _ => rfl

theorem Mirrors.finish {o : Outputs} {bs : List Backend} (h : o.Mirrors bs) :
    bs.mapM (·.finish o.options) = o.finish := by
  have hall {bs : List Backend} (h : ∀ b ∈ bs, o.Feeds b) :
      bs.mapM (·.finish o.options) =
        (bs.map Backend.format).mapM fun f => do return (f, ← o.artifact f) := by
    induction bs with
    | nil => rfl
    | cons b bs ih =>
      have hb := (h b (by simp)).finish
      have hbs := ih (fun c hc => h c (by simp [hc]))
      rw [List.map_cons, List.mapM_cons, List.mapM_cons, hb, hbs]
  rw [hall h.feeds, h.formats, Outputs.finish]

end Outputs

/-- The same with a linker at hand. -/
def Build.linked (b : Build) : Build := { b with links := true }

namespace Building

/-- Where the first comes out well, the second does the same with a linker at hand. -/
def Links (m n : Building α) (b : Build) : Prop :=
  ∀ a c, (m b).outcome = .ok (a, c) →
    n b.linked = ⟨(m b).emitted, (m b).warnings, .ok (a, c.linked)⟩

variable {m n : Building α} {b : Build}

theorem links_pure (a : α) : Links (pure a) (pure a) b := by
  intro x c h
  cases h
  rfl

theorem links_bind {f g : α → Building β} (h : Links m n b)
    (hf : ∀ a c, Links (f a) (g a) c) : Links (m >>= f) (n >>= g) b := by
  intro x d hd
  have hbind (m : Building α) (f : α → Building β) (b : Build) :
      (m >>= f) b = m b >>= fun x => f x.1 x.2 := rfl
  rw [hbind] at hd ⊢
  rw [hbind]
  cases hm : (m b).outcome with
  | error e =>
    rw [Trace.bind_error hm] at hd
    cases hd
  | ok p =>
    obtain ⟨a, c⟩ := p
    rw [Trace.bind_ok hm] at hd ⊢
    have hn := h a c hm
    have hg := hf a c x d hd
    rw [hn, Trace.bind_ok rfl, hg]

/-- The state is the same but for the linker. -/
theorem links_get {f g : Build → Building α} (h : Links (f b) (g b.linked) b) :
    Links (get >>= f) (get >>= g) b := by
  have hget (f : Build → Building α) (b : Build) : (get >>= f) b = f b b := by
    change (pure (b, b) >>= fun x => f x.1 x.2) = _
    rw [pure_bind]
  intro a c hc
  rw [hget] at hc ⊢
  rw [hget]
  exact h a c hc

theorem links_set (c : Build) : Links (set c) (set c.linked) b := by
  intro a d h
  cases h
  rfl

theorem links_modify {f : Build → Build} (hf : ∀ b, f b.linked = (f b).linked) :
    Links (modify f) (modify f) b := by
  intro a c h
  cases h
  change (pure (PUnit.unit, f b.linked) : Trace (PUnit × Build)) = _
  rw [hf]
  rfl

theorem links_lift (x : Trace α) : Links (liftM x) (liftM x) b := by
  have hlift (b : Build) : (liftM x : Building α) b = x >>= fun a => pure (a, b) := rfl
  intro a c h
  rw [hlift] at h ⊢
  rw [hlift]
  cases hx : x.outcome with
  | error e =>
    rw [Trace.bind_error hx] at h
    cases h
  | ok y =>
    rw [Trace.bind_ok hx] at h ⊢
    rw [Trace.bind_ok hx]
    cases h
    rfl

theorem links_ite (p : Prop) [Decidable p] {m' n' : Building α} (h : Links m n b)
    (h' : Links m' n' b) : Links (if p then m else m') (if p then n else n') b := by
  split
  · exact h
  · exact h'

end Building

namespace Build

open Building

variable {b : Build}

/-- The one question about the linker, which only a program without externals leaves open. -/
theorem links_requireLinker (c : Build) (l : Location) :
    Links (liftM (c.requireLinker l)) (liftM (c.linked.requireLinker l)) b := by
  cases hc : c.links with
  | true =>
    have hlinked : c.linked = c := by
      cases c
      cases hc
      rfl
    rw [hlinked]
    exact links_lift _
  | false =>
    have hfail : c.requireLinker l = Trace.fail l .externalsUnavailable := by
      simp [requireLinker, Trace.require, hc]
    intro a d h
    rw [hfail] at h
    cases h

theorem links_takeOrigin : Links takeOrigin takeOrigin b :=
  links_get (links_bind (links_set _) (fun _ _ => links_pure _))

theorem links_rejectOrigin : Links rejectOrigin rejectOrigin b := by
  refine links_bind links_takeOrigin (fun o c => ?_)
  cases o with
  | none => exact links_pure _
  | some o => exact links_lift _

theorem links_placeCode : Links placeCode placeCode b := by
  refine links_bind links_takeOrigin (fun o c => ?_)
  cases o with
  | none => exact links_pure _
  | some o => exact links_bind (links_lift _) (fun _ _ => links_lift _)

theorem links_placeVariable : Links placeVariable placeVariable b := by
  refine links_bind links_takeOrigin (fun o c => ?_)
  cases o with
  | none => exact links_pure _
  | some o =>
    refine links_get (links_bind (links_lift _) (fun last _ => ?_))
    exact links_bind (links_lift _) (fun _ _ => links_modify (fun _ => rfl))

theorem links_directive (name : Located String) (args : List (Located Expr)) :
    Links (directive name args) (directive name args) b := by
  unfold directive
  split
  · refine links_bind links_rejectOrigin (fun _ c => links_get ?_)
    refine links_bind (links_lift _) (fun k _ => links_bind (links_lift _) (fun _ _ => ?_))
    exact links_modify (fun _ => rfl)
  · exact links_lift _

theorem links_counting (part : Globals → Lowering Unit) :
    Links (counting part) (counting part) b :=
  links_get (links_bind (links_lift _) (fun _ _ => links_set _))

theorem links_procedure (p : Procedure) : Links (procedure p) (procedure p) b := by
  unfold procedure
  split
  · exact links_rejectOrigin
  · refine links_bind links_placeCode (fun _ _ => links_bind (links_lift _) (fun _ _ => ?_))
    exact links_bind (links_lift _) (fun _ _ => links_counting _)

theorem links_declareVariable (decl : VarDecl) :
    Links (declareVariable decl) (declareVariable decl) b := by
  refine links_bind links_placeVariable (fun _ c => links_get ?_)
  refine links_bind (links_lift _) (fun _ _ => links_bind (links_lift _) (fun length _ => ?_))
  exact links_bind (links_lift _) (fun _ _ => links_set _)

theorem links_declareExternal (decl : VarDecl) :
    Links (declareExternal decl) (declareExternal decl) b := by
  refine links_bind links_rejectOrigin (fun _ c => links_get ?_)
  refine links_bind (links_requireLinker c _) (fun _ _ => links_bind (links_lift _) (fun _ _ => ?_))
  exact links_bind (links_lift _) (fun _ _ => links_set _)

theorem links_declarePin (name target : Located String) :
    Links (declarePin name target) (declarePin name target) b := by
  refine links_bind links_rejectOrigin (fun _ c => links_get ?_)
  refine links_bind (links_lift _) (fun pin _ => links_bind (links_lift _) (fun _ _ => ?_))
  exact links_ite _ (links_bind (links_lift _) (fun _ _ => links_set _)) (links_set _)

theorem links_declareAlias (a : Alias) : Links (declareAlias a) (declareAlias a) b := by
  refine links_bind links_rejectOrigin (fun _ c => links_get ?_)
  exact links_bind (links_lift _) (fun _ _ => links_set _)

theorem links_item (i : Located Item) : Links (item i) (item i) b := by
  unfold item
  split
  · exact links_directive _ _
  · exact links_procedure _
  · exact links_rejectOrigin
  · exact links_declareVariable _
  · exact links_declareExternal _
  · exact links_declarePin _ _
  · exact links_declareAlias _
  · exact links_bind links_placeCode (fun _ _ => links_lift _)
  · refine links_bind links_placeCode (fun _ c => links_get ?_)
    exact links_bind (links_lift _) (fun _ _ => links_lift _)

theorem links_declareProcedure (p : Procedure) (isExternal : Bool) :
    Links (declareProcedure p isExternal) (declareProcedure p isExternal) b := by
  refine links_get (links_bind (links_lift _) (fun _ c => links_ite _ ?_ (links_set _)))
  refine links_bind (links_requireLinker b _) (fun _ _ => ?_)
  exact links_bind (links_lift _) (fun _ _ => links_set _)

theorem links_forM {f : α → Building PUnit} (hf : ∀ a b, Links (f a) (f a) b) (xs : List α) :
    Links (xs.forM f) (xs.forM f) b := by
  induction xs generalizing b with
  | nil => exact links_pure _
  | cons x xs ih => exact links_bind (hf x b) (fun _ _ => ih)

theorem links_program (p : Program) : Links (program p) (program p) b := by
  have hitems (b : Build) : Links (do p.items.forM item; rejectOrigin)
      (do p.items.forM item; rejectOrigin) b :=
    links_bind (links_forM (fun i _ => links_item i) _) (fun _ _ => links_rejectOrigin)
  have hdeclare : Links (declareProcedures p.items) (declareProcedures p.items) b := by
    refine links_forM (fun i b => ?_) _
    split
    · exact links_declareProcedure _ _
    · exact links_declareProcedure _ _
    · exact links_pure _
  refine links_bind hdeclare (fun _ c => ?_)
  simp only
  split
  · exact links_bind (links_counting _) (fun _ c => hitems c)
  · exact hitems c

end Build

/-- A program that needs no linker is lowered to the same with one. -/
theorem Program.lower_linked {p : Program} {device : Device} {u : Unit}
    (h : (p.lower device false).outcome = .ok u) : p.lower device true = p.lower device false := by
  let start : Build := { globals := { device }, links := false }
  have hfalse : p.lower device false = Build.program p start >>= fun x => pure x.1 := rfl
  have htrue : p.lower device true = Build.program p start.linked >>= fun x => pure x.1 := rfl
  rw [hfalse] at h
  rw [hfalse, htrue]
  cases hp : (Build.program p start).outcome with
  | error e =>
    rw [Trace.bind_error hp] at h
    cases h
  | ok x =>
    rw [Build.links_program p x.1 x.2 hp, Trace.bind_ok hp, Trace.bind_ok rfl]

namespace Outputs

/-- Which formats there are makes no difference to what is laid out, as long as there is one. -/
theorem emit_withFormats {o p : Outputs} {e : Emission} {formats : List Format}
    (ho : o.formats.isEmpty = false) (hf : formats.isEmpty = false) (h : o.emit e = .ok p) :
    { o with formats }.emit e = .ok { p with formats } := by
  simp only [emit, ho, hf, Bool.false_eq_true, if_false] at h ⊢
  cases e with
  | label name =>
    obtain ⟨l, hl, h⟩ := bind_ok.mp h
    cases h
    simp only [hl]
    rfl
  | declare symbol linkage =>
    cases h
    cases linkage <;> rfl
  | _ =>
    cases h
    rfl

theorem emitAll_withFormats {o p : Outputs} {es : List Emission} {formats : List Format}
    (ho : o.formats.isEmpty = false) (hf : formats.isEmpty = false) (h : o.emitAll es = .ok p) :
    { o with formats }.emitAll es = .ok { p with formats } := by
  induction es generalizing o with
  | nil =>
    cases h
    rfl
  | cons e es ih =>
    simp only [emitAll, List.foldlM_cons] at h ⊢
    obtain ⟨q, hq, h⟩ := bind_ok.mp h
    rw [emit_withFormats ho hf hq]
    exact ih ((emit_selection hq).1 ▸ ho) h

theorem emitAll_formats {o p : Outputs} {es : List Emission} (h : o.emitAll es = .ok p) :
    p.formats = o.formats := by
  induction es generalizing o with
  | nil =>
    cases h
    rfl
  | cons e es ih =>
    simp only [emitAll, List.foldlM_cons] at h
    obtain ⟨q, hq, h⟩ := bind_ok.mp h
    rw [ih h, (emit_selection hq).1]

theorem mem_ofFormats {formats : List Format} {options : OutputOptions} {f : Format} :
    f ∈ (ofFormats formats options).formats ↔ f ∈ formats := by
  have hall : f ∈ Format.all := by cases f <;> decide
  simp [ofFormats, hall]

theorem isEmpty_ofFormats {formats : List Format} (options : OutputOptions) {f : Format}
    (hf : f ∈ formats) : (ofFormats formats options).formats.isEmpty = false :=
  List.isEmpty_eq_false_iff_exists_mem.mpr ⟨f, mem_ofFormats.mpr hf⟩

/-- The artifacts hold for each format what that format alone writes. -/
theorem lookup_finish {o : Outputs} {as : List (Format × Artifact)} {f : Format}
    (h : o.finish = .ok as) (hf : f ∈ o.formats) :
    ∃ a, o.artifact f = .ok a ∧ as.lookup f = some a := by
  have hpairs := mapM_ok h
  clear h
  generalize o.formats = fs at hf hpairs
  induction hpairs with
  | nil => cases hf
  | @cons g x gs xs hx _ ih =>
    obtain ⟨a, ha, hx⟩ := bind_ok.mp hx
    cases hx
    by_cases hg : f = g
    · subst hg
      exact ⟨a, ha, by simp⟩
    · obtain ⟨a', ha', hlookup⟩ := ih ((List.mem_cons.mp hf).resolve_left hg)
      refine ⟨a', ha', ?_⟩
      rw [List.lookup_cons, beq_false_of_ne hg]
      exact hlookup

end Outputs

theorem compile_lower {device : Device} {program : Program} {outputs : Outputs} {c : Compiled}
    (h : compile device program outputs = .ok c) :
    (program.lower device outputs.linksExternals).outcome = .ok () ∧
      c.warnings = (program.lower device outputs.linksExternals).warnings := by
  unfold compile at h
  simp only [bind_ok, pure_ok] at h
  obtain ⟨o, _, ⟨⟩, houtcome, rfl⟩ := h
  exact ⟨houtcome, rfl⟩

/-- A linker that is not needed is not noticed. -/
theorem compile_lower_eq {device : Device} {program : Program} {o p : Outputs} {c d : Compiled}
    (hc : compile device program o = .ok c) (hd : compile device program p = .ok d) :
    program.lower device o.linksExternals = program.lower device p.linksExternals := by
  have hlower := (compile_lower hc).1
  have hlower' := (compile_lower hd).1
  cases ho : o.linksExternals <;> cases hp : p.linksExternals
  · rfl
  · rw [ho] at hlower
    exact (Program.lower_linked hlower).symm
  · rw [hp] at hlower'
    exact Program.lower_linked hlower'
  · rfl

/-- Backends that are told of the same emissions, refused labels included, hold the same assembly at
all times, and together write what the outputs write. If a program compiles for two selections of
formats, it has the same warnings with both, and a format in both has the same artifact. -/
theorem formats_do_not_interfere :
    (∀ (formats : List Format) (options : OutputOptions) (es : List Emission),
      let bs := Backend.run (Backend.ofFormats formats) es
      bs.map Backend.format = Format.all.filter (· ∈ formats) ∧
      (∀ b ∈ bs, ∀ c ∈ bs, b.layout = c.layout) ∧
      (∀ e fault, (Backend.emit e bs).2 = some fault → (Backend.emit e bs).1 = bs) ∧
      bs.mapM (·.finish options) = ((Outputs.ofFormats formats options).run es).finish) ∧
    ∀ (device : Device) (program : Program) (options : OutputOptions) (fs gs : List Format)
      (f : Format) (c d : Compiled) (as bs : List (Format × Artifact)), f ∈ fs → f ∈ gs →
      compile device program (.ofFormats fs options) = .ok c → c.outputs.finish = .ok as →
      compile device program (.ofFormats gs options) = .ok d → d.outputs.finish = .ok bs →
      c.warnings = d.warnings ∧ ∃ a, as.lookup f = some a ∧ bs.lookup f = some a := by
  constructor
  · intro formats options es bs
    have h := (Outputs.mirrors_ofFormats formats options).run es
    obtain ⟨hformats, hoptions⟩ := Outputs.run_selection (.ofFormats formats options) es
    have hfinish := h.finish
    rw [hoptions] at hfinish
    refine ⟨h.formats.trans hformats, ?_, ?_, hfinish⟩
    · intro b hb c hc
      rw [(h.feeds b hb).layout, (h.feeds c hc).layout]
    · intro e fault hfault
      rcases h.emit e with ⟨p, _, hnone, _⟩ | ⟨_, _, hb⟩
      · rw [hnone] at hfault
        cases hfault
      · exact congrArg Prod.fst hb
  · intro device program options fs gs f c d as bs hf hg hc has hd hbs
    have hlower := compile_lower_eq hc hd
    have houtputs := compile_emitAll hc
    have houtputs' := compile_emitAll hd
    rw [hlower] at houtputs
    have hsame := Outputs.emitAll_withFormats (Outputs.isEmpty_ofFormats options hf)
      (Outputs.isEmpty_ofFormats options hg) houtputs
    have hd' : d.outputs = { c.outputs with formats := (Outputs.ofFormats gs options).formats } :=
      Except.ok.inj (houtputs'.symm.trans hsame)
    obtain ⟨a, ha, hlookup⟩ := Outputs.lookup_finish (f := f) has
      (by rw [Outputs.emitAll_formats houtputs]; exact Outputs.mem_ofFormats.mpr hf)
    obtain ⟨a', ha', hlookup'⟩ := Outputs.lookup_finish (f := f) hbs
      (by rw [Outputs.emitAll_formats houtputs']; exact Outputs.mem_ofFormats.mpr hg)
    rw [hd'] at ha'
    obtain rfl : a = a' := Except.ok.inj (ha.symm.trans ha')
    exact ⟨by rw [(compile_lower hc).2, (compile_lower hd).2, hlower], a, hlookup, hlookup'⟩

/-- The artifacts of the sample program. -/
def sampleArtifacts (formats : List Format) : Checked (Compiled × List (Format × Artifact)) := do
  let c ← compile sampleDevice sampleLoop (.ofFormats formats {})
  return (c, ← c.outputs.finish)

theorem sampleArtifacts_isOk :
    (sampleArtifacts [.gcc, .hex]).isOk ∧ (sampleArtifacts [.hex, .map]).isOk := by
  decide +kernel

theorem sampleArtifacts_ok {formats : List Format} (h : (sampleArtifacts formats).isOk) :
    ∃ c as, compile sampleDevice sampleLoop (.ofFormats formats {}) = .ok c ∧
      c.outputs.finish = .ok as := by
  cases hs : sampleArtifacts formats with
  | error e =>
    rw [hs] at h
    cases h
  | ok x =>
    obtain ⟨c, hc, hs⟩ := bind_ok.mp hs
    obtain ⟨as, has, _⟩ := bind_ok.mp hs
    exact ⟨c, as, hc, has⟩

/-- With and without a linker, and next to different formats. -/
theorem formats_do_not_interfere_hex :
    ∃ c d as bs, compile sampleDevice sampleLoop (.ofFormats [.gcc, .hex] {}) = .ok c ∧
      c.outputs.finish = .ok as ∧
      compile sampleDevice sampleLoop (.ofFormats [.hex, .map] {}) = .ok d ∧
      d.outputs.finish = .ok bs ∧ c.warnings = d.warnings ∧
      ∃ a, as.lookup .hex = some a ∧ bs.lookup .hex = some a := by
  obtain ⟨c, as, hc, has⟩ := sampleArtifacts_ok sampleArtifacts_isOk.1
  obtain ⟨d, bs, hd, hbs⟩ := sampleArtifacts_ok sampleArtifacts_isOk.2
  exact ⟨c, d, as, bs, hc, has, hd, hbs,
    formats_do_not_interfere.2 _ _ _ _ _ .hex c d as bs (by decide) (by decide) hc has hd hbs⟩

end Avr
