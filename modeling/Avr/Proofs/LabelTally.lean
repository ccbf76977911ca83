import Avr.Proofs.LabelCensus

namespace Avr

open Trace

namespace Build

/-- What the items of a program may change only by having code. -/
def kept (b : Build) : Counters × List Procedure := (b.counters, b.globals.procedures)

/-- An item that has no label of its own. -/
abbrev Quiet (code : Building α) : Prop := QuietFrom kept code

theorem quiet_takeOrigin : Quiet takeOrigin := by
  intro b
  exact quietAt_get_bind (quietAt_bind (quietAt_set rfl) fun _ _ _ => quietAt_pure _)

theorem quiet_rejectOrigin : Quiet rejectOrigin := by
  refine quietFrom_bind quiet_takeOrigin fun o => ?_
  cases o with
  | none => exact quietFrom_pure _
  | some o => exact quietFrom_lift (by simp)

theorem quiet_placeCode : Quiet placeCode := by
  refine quietFrom_bind quiet_takeOrigin fun o => ?_
  cases o with
  | none => exact quietFrom_pure _
  | some o => exact quietFrom_bind (by simp) fun _ => by simp [Emission.label?]

theorem quiet_placeVariable : Quiet placeVariable := by
  refine quietFrom_bind quiet_takeOrigin fun o => ?_
  cases o with
  | none => exact quietFrom_pure _
  | some o =>
    refine quietFrom_bind quietFrom_get fun b => quietFrom_bind (by simp) fun last => ?_
    exact quietFrom_bind (by simp) fun _ _ => quietAt_modify rfl

theorem quiet_directive (name : Located String) (args : List (Located Expr)) :
    Quiet (directive name args) := by
  unfold directive
  split
  · refine quietFrom_bind quiet_rejectOrigin fun _ => quietFrom_bind quietFrom_get fun b => ?_
    refine quietFrom_bind (by simp) fun k => ?_
    exact quietFrom_bind (by simp) fun _ _ => quietAt_modify rfl
  · simp

theorem quiet_declareVariable (decl : VarDecl) : Quiet (declareVariable decl) := by
  have hlength (n : Names) (e : Option (Located Expr)) : (arrayLength n e).Quiet := by
    cases e with
    | none => exact quiet_pure _
    | some e => exact quiet_bind (by simp) fun k => quiet_bind (by simp) fun _ => by simp
  refine quietFrom_bind quiet_placeVariable fun _ b => quietAt_get_bind ?_
  refine quietAt_lift_bind (by simp) fun _ => quietAt_lift_bind (hlength _ _) fun n => ?_
  exact quietAt_lift_bind (by simp) fun _ => quietAt_set rfl

theorem quiet_declareExternal (decl : VarDecl) : Quiet (declareExternal decl) := by
  refine quietFrom_bind quiet_rejectOrigin fun _ b => quietAt_get_bind ?_
  refine quietAt_lift_bind (by simp [requireLinker]) fun _ => ?_
  refine quietAt_lift_bind (by simp) fun _ => ?_
  exact quietAt_lift_bind (by simp [Emission.label?]) fun _ => quietAt_set rfl

theorem quiet_declarePin (name target : Located String) : Quiet (declarePin name target) := by
  refine quietFrom_bind quiet_rejectOrigin fun _ b => quietAt_get_bind ?_
  refine quietAt_lift_bind (by simp) fun p => quietAt_lift_bind (by simp) fun _ => ?_
  split
  · exact quietAt_lift_bind (by simp) fun _ => quietAt_set rfl
  · exact quietAt_set rfl

theorem quiet_declareAlias (a : Alias) : Quiet (declareAlias a) := by
  refine quietFrom_bind quiet_rejectOrigin fun _ b => quietAt_get_bind ?_
  exact quietAt_lift_bind (by simp) fun _ => quietAt_set rfl

theorem quiet_data (l : Location) (block : DataBlock) : Quiet (do
    placeCode
    let row ← (← get).names.dataRow block
    Trace.emit (.data ⟨l, row⟩)) := by
  refine quietFrom_bind quiet_placeCode fun _ => quietFrom_bind quietFrom_get fun b => ?_
  exact quietFrom_bind (by simp) fun row => by simp [Emission.label?]

end Build

def Item.procedure? : Item → Option Procedure
  | .procedure p => some p
  | _ => none

def Item.externalProcedure? : Item → Option Procedure
  | .externalProcedure p => some p
  | _ => none

def Item.label? : Item → Option String
  | .label name => some name
  | _ => none

namespace Build

theorem quiet_declareProcedure (p : Procedure) (isExternal : Bool) :
    QuietFrom counters (declareProcedure p isExternal) := by
  intro b
  refine quietAt_get_bind (quietAt_lift_bind (by simp) fun _ => ?_)
  split
  · refine quietAt_lift_bind (by simp [requireLinker]) fun _ => ?_
    exact quietAt_lift_bind (by simp [Emission.label?]) fun _ => quietAt_set rfl
  · exact quietAt_set rfl

theorem quiet_declareProcedures (items : List (Located Item)) :
    QuietFrom counters (declareProcedures items) := by
  refine quietFrom_forM fun i _ => ?_
  split
  · exact quiet_declareProcedure _ _
  · exact quiet_declareProcedure _ _
  · exact quietFrom_pure _

/-- A procedure is listed if no other has its name. -/
theorem declareProcedure_ok {p : Procedure} {b c : Build} {u : Unit}
    (h : (declareProcedure p false b).outcome = .ok (u, c)) :
    c = { b with globals := { b.globals with procedures := b.globals.procedures ++ [p] } } ∧
      p.name.value ∉ b.globals.procedures.map (·.name.value) := by
  obtain ⟨_, _, hget, h⟩ := bind_outcome h
  cases hget
  obtain ⟨_, hrequire, h⟩ := lift_bind_outcome h
  cases h
  refine ⟨rfl, fun hmem => ?_⟩
  obtain ⟨q, hq, hname⟩ := List.mem_map.mp hmem
  have hfound : (b.globals.callable? p.name.value).isSome := by
    have hsome : (b.globals.procedure? p.name.value).isSome :=
      List.find?_isSome.mpr ⟨q, hq, by simpa using hname⟩
    simp [Globals.callable?, hsome]
  rw [require, if_neg (by simpa [Option.isSome_iff_ne_none] using hfound)] at hrequire
  cases hrequire

theorem declareProcedure_external {p : Procedure} {b c : Build} {u : Unit}
    (h : (declareProcedure p true b).outcome = .ok (u, c)) :
    c = { b with globals := { b.globals with
      externalProcedures := b.globals.externalProcedures ++ [p] } } := by
  obtain ⟨_, _, hget, h⟩ := bind_outcome h
  cases hget
  obtain ⟨_, _, h⟩ := lift_bind_outcome h
  obtain ⟨_, _, h⟩ := lift_bind_outcome h
  obtain ⟨_, _, h⟩ := lift_bind_outcome h
  cases h
  rfl

/-- Procedures are listed in their order, each under a name of its own. -/
theorem declareProcedures_ok {items : List (Located Item)} {b c : Build} {u : Unit}
    (h : (declareProcedures items b).outcome = .ok (u, c)) :
    c = { b with globals := { b.globals with
      procedures := b.globals.procedures ++ items.filterMap (·.value.procedure?)
      externalProcedures :=
        b.globals.externalProcedures ++ items.filterMap (·.value.externalProcedure?) } } ∧
    ((b.globals.procedures.map (·.name.value)).Nodup →
      (c.globals.procedures.map (·.name.value)).Nodup) := by
  induction items generalizing b with
  | nil =>
    cases h
    exact ⟨by simp, id⟩
  | cons i items ih =>
    obtain ⟨_, d, hi, h⟩ := bind_outcome h
    obtain ⟨rfl, hnodup⟩ := ih h
    obtain ⟨l, item⟩ := i
    cases item with
    | procedure p =>
      obtain ⟨rfl, hfresh⟩ := declareProcedure_ok hi
      refine ⟨by simp [Item.procedure?, Item.externalProcedure?], fun hb => hnodup ?_⟩
      rw [List.map_append]
      exact List.nodup_append.mpr ⟨hb, List.nodup_singleton _, by simpa using hfresh⟩
    | externalProcedure p =>
      obtain rfl := declareProcedure_external hi
      exact ⟨by simp [Item.procedure?, Item.externalProcedure?], hnodup⟩
    | _ =>
      cases hi
      exact ⟨by simp [Item.procedure?, Item.externalProcedure?], hnodup⟩

end Build

/-- The bodies that are expanded in a procedure, each as often as it is. -/
def Procedure.expansions (ps : List Procedure) (q : Procedure) : List Procedure :=
  q.occurrences.flatMap (expansionsUpTo ps ps.length [])

section Tally

variable (ps : List Procedure)

/-- How often code with these labels and bodies may define a label, while the counters go from `p`
to `c`. -/
def tally (labels : List String) (bodies : List Procedure) (p c : Counters) : Mark → Nat
  | .global name =>
    (labels ++ bodies.map (·.name.value) ++ bodies.flatMap Procedure.globals ++
      (bodies.flatMap (Procedure.expansions ps)).flatMap Procedure.globals).count name
  | .inner t name =>
    if t.expansions = [] then
      ((bodies.filter (·.name.value = t.procedure)).flatMap Procedure.inners).count name
    else if t.procedure ∈ bodies.map (·.name.value) ∧ p.leads c ⟨t.procedure, []⟩ t then
      innerMost ps name
    else 0
  | .construct t kind line _ =>
    if t.expansions = [] then
      ((bodies.filter (·.name.value = t.procedure)).flatMap Procedure.constructs).count
        (kind.construct, line)
    else if t.procedure ∈ bodies.map (·.name.value) ∧ p.leads c ⟨t.procedure, []⟩ t then 1
    else 0
  | .probe n _ => if p.probes ≤ n ∧ n < c.probes then 1 else 0

variable {ps} {labels labels' : List String} {bodies bodies' : List Procedure} {p c d : Counters}

theorem tally_append (hp : p.Le c) (hc : c.Le d) (m : Mark) :
    tally ps labels bodies p c m + tally ps labels' bodies' c d m ≤
      tally ps (labels ++ labels') (bodies ++ bodies') p d m := by
  cases m with
  | global name =>
    simp only [tally, List.map_append, List.flatMap_append, List.count_append]
    omega
  | inner t name =>
    obtain ⟨hsplit, honce⟩ := leads_split hp hc ⟨t.procedure, []⟩ t
    simp only [tally, List.filter_append, List.flatMap_append, List.count_append, List.map_append,
      List.mem_append, hsplit]
    grind
  | construct t kind line way =>
    obtain ⟨hsplit, honce⟩ := leads_split hp hc ⟨t.procedure, []⟩ t
    simp only [tally, List.filter_append, List.flatMap_append, List.count_append, List.map_append,
      List.mem_append, hsplit]
    grind
  | probe n stops =>
    have := hp.probes
    have := hc.probes
    simp only [tally]
    grind

/-- A procedure has its name and its share. -/
theorem tally_body (q : Procedure) (m : Mark) :
    [Mark.global q.name.value].count m +
        share ps (expansionsUpTo ps ps.length []) ⟨q.name.value, []⟩ q.occurrences p c m ≤
      tally ps [] [q] p c m := by
  have hplace (t : Stem) (w : Nat) (own : List Procedure → Nat) :
      (if t = ⟨q.name.value, []⟩ then own [q]
        else if p.leads c ⟨q.name.value, []⟩ t then w else 0) ≤
      if t.expansions = [] then own ([q].filter (·.name.value = t.procedure))
        else if t.procedure ∈ [q].map (·.name.value) ∧ p.leads c ⟨t.procedure, []⟩ t then w
        else 0 := by
    by_cases ht : t = ⟨q.name.value, []⟩
    · simp [ht]
    · by_cases hleads : p.leads c ⟨q.name.value, []⟩ t
      · obtain ⟨n, hn⟩ : ∃ n, Stem.next? ⟨q.name.value, []⟩ t = some n := by
          rw [← Option.isSome_iff_exists]
          exact Option.isSome_of_any hleads
        have hname : q.name.value = t.procedure := by
          unfold Stem.next? at hn
          grind
        have hinside : t.expansions ≠ [] := by
          intro hnil
          simp [Stem.next?, hnil] at hn
        rw [hname] at hleads ht
        simp [ht, hleads, hname, hinside]
      · simp [ht, hleads]
  cases m with
  | global name =>
    have hself : [Mark.global q.name.value].count (.global name) = [q.name.value].count name := by
      simp [List.count_cons]
    simp only [tally, share, Procedure.expansions, Procedure.globals, List.map_cons, List.map_nil,
      List.flatMap_cons, List.flatMap_nil, List.append_nil, List.nil_append, List.count_append,
      hself]
    omega
  | inner t name =>
    have := hplace t (innerMost ps name) fun bs => (bs.flatMap Procedure.inners).count name
    simpa [share, tally, Procedure.inners] using this
  | construct t kind line way =>
    have := hplace t 1 fun bs => (bs.flatMap Procedure.constructs).count (kind.construct, line)
    simpa [share, tally, Procedure.constructs] using this
  | probe n stops => simp [share, tally]

end Tally

/-- Tallies add up along a list of parts. -/
theorem lays_forM {σ : Type} {read : σ → Counters} {inv : σ → Prop} {ps : List Procedure}
    {f : α → StateT σ Trace PUnit} {labels : α → List String} {bodies : α → List Procedure}
    (hf : ∀ x p, inv p →
      Lays read inv (f x) p fun c m => tally ps (labels x) (bodies x) (read p) c m)
    (xs : List α) {p : σ} (hp : inv p) :
    Lays read inv (xs.forM f) p fun c m =>
      tally ps (xs.flatMap labels) (xs.flatMap bodies) (read p) c m := by
  induction xs generalizing p with
  | nil =>
    refine lays_quiet (quietAt_pure _ : QuietAt id _ p) (fun q hq => ?_) _
    obtain rfl : q = p := hq
    exact ⟨rfl, hp⟩
  | cons x xs ih =>
    exact Lays.bind (k := fun e c m => tally ps (xs.flatMap labels) (xs.flatMap bodies) e c m)
      (hf x p hp) (fun _ q _ hq => ih hq) fun _ _ m hc hd => tally_append hc hd m

theorem lays_limited_quiet {body : Lowering α} (h : Lowering.Quiet body) (ps : List Procedure)
    (maxInstructions maxBytes : Nat) (l : Location) (p : Progress) :
    Lays Progress.toCounters (fun _ => True) (Lowering.limited maxInstructions maxBytes l body) p
      fun c m => tally ps [] [] p.toCounters c m := by
  have hbody : Lays Progress.toCounters (fun _ => True) body { p with probes := p.probes + 1 }
      fun _ _ => 0 := lays_quiet (h _) (fun _ hq => ⟨hq, trivial⟩) _
  refine lays_limited hbody fun c m hprobes _ => ?_
  cases m with
  | probe n stops =>
    simp only [tally, List.count_cons, List.count_nil]
    grind
  | _ => simp

/-- The table of vectors has only probes. -/
theorem lays_vectors (ps : List Procedure) (g : Globals) (table : Located (List VectorEntry))
    (p : Progress) :
    Lays Progress.toCounters (fun _ => True) (g.vectors table) p fun c m =>
      tally ps [] [] p.toCounters c m := by
  have hvector (x : Interrupt × Nat) (p : Progress) : Lays Progress.toCounters (fun _ => True)
      (g.vector table.location table.value x.2 x.1) p
      fun c m => tally ps [] [] p.toCounters c m := by
    have haction (sc : Scope) (a : VectorAction) : Lowering.Quiet (a.lower sc table.location) :=
      (a.stateless_lower (fun _ => trivial) sc table.location).quiet
    refine Lays.bind (k := fun e c m => tally ps [] [] e c m)
      (lays_limited_quiet (haction _ _) ps _ _ _ p) (fun size q _ _ => ?_)
      fun _ _ m hc hd => tally_append hc hd m
    refine lays_quiet (quietFrom_forM (fun _ _ => quietFrom_lift (quiet_place ?_)) q)
      (fun _ hq => ⟨hq, trivial⟩) _
    simp
  refine Lays.quiet_bind (quietAt_lift (quiet_forM fun e _ => by simp)) (fun _ hq => hq)
    fun _ q _ hq => ?_
  have hall := lays_forM (fun x q _ => hvector x q) g.device.interrupts.zipIdx (p := q) trivial
  rw [List.flatMap_eq_nil_iff.mpr fun _ _ => rfl, List.flatMap_eq_nil_iff.mpr fun _ _ => rfl,
    hq] at hall
  exact hall

namespace Build

variable {ps : List Procedure} {b : Build}

/-- Of the state, only the counters change. -/
theorem counting_eq (part : Globals → Lowering Unit) (b : Build) :
    counting part b = part b.globals ⟨b.counters, []⟩ >>= fun x =>
      pure ((), { b with counters := x.2.toCounters }) := by
  change (part b.globals ⟨b.counters, []⟩ >>= fun x => pure (x, b)) >>= _ = _
  rw [bind_assoc]
  rfl

theorem lays_counting {part : Globals → Lowering Unit} {k : Counters → Mark → Nat}
    (hb : b.globals.procedures = ps)
    (h : Lays Progress.toCounters (fun _ => True) (part b.globals) ⟨b.counters, []⟩ k) :
    Lays counters (fun b => b.globals.procedures = ps) (counting part) b k := by
  obtain ⟨c, marks, hdef, hcount⟩ := h
  refine ⟨c, marks, ?_, hcount⟩
  rw [counting_eq]
  cases ho : (part b.globals ⟨b.counters, []⟩).outcome with
  | error e =>
    refine ⟨by rw [labels_bind_error ho, hdef.labels], hdef.le, ?_, ?_⟩
    · intro _ d hd
      rw [bind_error ho] at hd
      cases hd
    · intro l name he
      rw [bind_error ho] at he
      cases he
      exact hdef.fault l name ho
  | ok x =>
    refine ⟨?_, hdef.le, ?_, ?_⟩
    · rw [labels_bind_ok ho, hdef.labels]
      exact List.append_nil _
    · intro _ d hd
      rw [bind_ok ho] at hd
      cases hd
      exact ⟨(hdef.result _ _ ho).1, hb⟩
    · intro l name he
      rw [bind_ok ho] at he
      cases he

theorem kept_eq (hb : b.globals.procedures = ps) :
    ∀ c : Build, c.kept = b.kept → c.counters = b.counters ∧ c.globals.procedures = ps := by
  intro c hc
  exact ⟨congrArg Prod.fst hc, (congrArg Prod.snd hc).trans hb⟩

theorem lays_label (hb : b.globals.procedures = ps) (l : Location) (name : String) :
    Lays counters (fun b => b.globals.procedures = ps)
      (liftM (define l name) : Building Unit) b fun _ m => [Mark.global name].count m :=
  lays_define (Mark.text_global name).symm hb

theorem lays_body (hconstructs : ∀ q ∈ ps, q.constructs.Nodup) (hb : b.globals.procedures = ps)
    (q : Procedure) :
    Lays counters (fun b => b.globals.procedures = ps)
      (counting fun g => Scope.lowerBody { globals := g, procedure := some q } q.body) b
      fun c m => share ps (expansionsUpTo ps ps.length []) ⟨q.name.value, []⟩ q.occurrences
        b.counters c m := by
  refine lays_counting hb ?_
  have hstands : Scope.Stands { globals := b.globals, procedure := some q } ps
      ⟨q.name.value, []⟩ [] :=
    ⟨hb, by simp [Scope.stem, Stem.text], rfl⟩
  have hbody := counted_body hconstructs ps.length hstands q.body 0 ⟨b.counters, []⟩
  rw [Scope.lowerBody, hstands.procedures]
  exact hbody.mono fun c m _ => by rw [times_nil, Nat.zero_add]; exact Nat.le_refl _

/-- A procedure with code of its own has its name and its share. -/
theorem lays_procedure (hconstructs : ∀ q ∈ ps, q.constructs.Nodup)
    (hb : b.globals.procedures = ps) {q : Procedure} (hq : q.inline = false) :
    Lays counters (fun b => b.globals.procedures = ps) (procedure q) b fun c m =>
      tally ps [] [q] b.counters c m := by
  rw [procedure, if_neg (by simp [hq])]
  refine Lays.quiet_bind (quiet_placeCode b) (fun c hc => (kept_eq hb c hc).1) fun _ c _ hc => ?_
  obtain ⟨hcounters, hc⟩ := kept_eq hb c hc
  rw [← hcounters]
  refine Lays.bind (k := fun e c m => share ps (expansionsUpTo ps ps.length []) ⟨q.name.value, []⟩
    q.occurrences e c m) (lays_label hc _ _) (fun _ d _ hd => ?_)
    fun e d m hp hd => ?_
  · refine Lays.quiet_bind (quietAt_lift (by simp [Emission.label?]) : QuietAt kept _ d)
      (fun e he => (kept_eq hd e he).1) fun _ e _ he => ?_
    obtain ⟨hcounters, he⟩ := kept_eq hd e he
    rw [← hcounters]
    exact lays_body hconstructs he q
  · have hfrom : tally ps [] [] c.counters e m + tally ps [] [q] e d m ≤
        tally ps [] [q] c.counters d m := tally_append hp hd m
    exact Nat.le_trans (tally_body q m) (Nat.le_trans (Nat.le_add_left _ _) hfrom)

theorem lays_item (hconstructs : ∀ q ∈ ps, q.constructs.Nodup) (i : Located Item)
    (hb : b.globals.procedures = ps) :
    Lays counters (fun b => b.globals.procedures = ps) (item i) b fun c m =>
      tally ps i.value.label?.toList (i.value.procedure?.filter (!·.inline)).toList
        b.counters c m := by
  obtain ⟨l, i⟩ := i
  have hquiet {code : Building Unit} (h : Quiet code) (k : Counters → Mark → Nat) :
      Lays counters (fun b => b.globals.procedures = ps) code b k :=
    lays_quiet (h b) (kept_eq hb) k
  cases i with
  | directive name args => exact hquiet (quiet_directive name args) _
  | procedure q =>
    cases hq : q.inline with
    | true =>
      have hcode : item ⟨l, .procedure q⟩ = rejectOrigin := if_pos hq
      rw [hcode]
      exact hquiet quiet_rejectOrigin _
    | false =>
      have hstanding : ((Item.procedure q).procedure?.filter (!·.inline)).toList = [q] := by
        simp [Item.procedure?, Option.filter, hq]
      rw [hstanding]
      exact lays_procedure hconstructs hb hq
  | externalProcedure q => exact hquiet quiet_rejectOrigin _
  | var decl => exact hquiet (quiet_declareVariable decl) _
  | externalVar decl => exact hquiet (quiet_declareExternal decl) _
  | pin name target => exact hquiet (quiet_declarePin name target) _
  | use a => exact hquiet (quiet_declareAlias a) _
  | label name =>
    refine Lays.quiet_bind (quiet_placeCode b) (fun c hc => (kept_eq hb c hc).1)
      fun _ c _ hc => ?_
    refine (lays_label (kept_eq hb c hc).2 l name).mono fun d m _ => ?_
    cases m with
    | global other => simp [tally, Item.label?, List.count_cons, List.count_nil]
    | _ => simp
  | data block => exact hquiet (quiet_data l block) _

end Build

namespace Program

def procedures (p : Program) : List Procedure := p.items.filterMap (·.value.procedure?)

/-- The procedures with code of their own. -/
def standing (p : Program) : List Procedure := p.procedures.filter (!·.inline)

/-- The labels that stand between procedures. -/
def labels (p : Program) : List String := p.items.filterMap (·.value.label?)

/-- The bodies that are expanded, each as often as it is. -/
def expansions (p : Program) : List Procedure :=
  p.standing.flatMap (Procedure.expansions p.procedures)

/-- The names that the source defines for the whole program. -/
def globalNames (p : Program) : List String :=
  p.labels ++ p.standing.map (·.name.value) ++ p.procedures.flatMap Procedure.globals

theorem lays_items {p : Program} (hconstructs : ∀ q ∈ p.procedures, q.constructs.Nodup) {b : Build}
    (hb : b.globals.procedures = p.procedures) :
    Lays Build.counters (fun b => b.globals.procedures = p.procedures)
      (do p.items.forM Build.item; Build.rejectOrigin) b fun c m =>
      tally p.procedures p.labels p.standing b.counters c m := by
  have hitems := lays_forM (fun i _ hb => Build.lays_item hconstructs i hb) p.items hb
  rw [← List.filterMap_eq_flatMap_toList, ← List.filterMap_eq_flatMap_toList,
    ← List.filter_filterMap] at hitems
  refine hitems.bind (k := fun e c m => tally p.procedures [] [] e c m) (fun _ c _ hc => ?_) ?_
  · exact lays_quiet (Build.quiet_rejectOrigin c) (Build.kept_eq hc) _
  · intro c d m hc hd
    have hadd : tally p.procedures p.labels p.standing b.counters c m +
        tally p.procedures [] [] c d m ≤
        tally p.procedures (p.labels ++ []) (p.standing ++ []) b.counters d m :=
      tally_append hc hd m
    rwa [List.append_nil, List.append_nil] at hadd

/-- The labels of a program are within its tally. Two procedures of one name are refused before
anything else is looked at. -/
theorem lays_program {p : Program} (hconstructs : ∀ q ∈ p.procedures, q.constructs.Nodup)
    (device : Device) (links : Bool) :
    Lays Build.counters (fun b => b.globals.procedures = p.procedures) (Build.program p)
      { globals := { device }, links } fun c m =>
      if (p.procedures.map (·.name.value)).Nodup then
        tally p.procedures p.labels p.standing {} c m
      else 0 := by
  refine Lays.quiet_bind (Build.quiet_declareProcedures p.items _) (fun _ hq => hq)
    fun _ b hb hcounters => ?_
  obtain ⟨hdeclared, hnodup⟩ := Build.declareProcedures_ok hb
  have hps : b.globals.procedures = p.procedures := by simp [hdeclared, procedures]
  replace hnodup := hnodup List.nodup_nil
  rw [hps] at hnodup
  simp only [if_pos hnodup]
  rw [show ({} : Counters) = b.counters from hcounters.symm]
  split
  · next table _ =>
    refine Lays.bind (k := fun e c m => tally p.procedures p.labels p.standing e c m)
      (Build.lays_counting hps (lays_vectors p.procedures _ table _))
      (fun _ c _ hc => lays_items hconstructs hc) fun c d m hc hd => tally_append hc hd m
  · exact lays_items hconstructs hps

end Program

theorem Program.lower_labels {p : Program} (hconstructs : ∀ q ∈ p.procedures, q.constructs.Nodup)
    (device : Device) (links : Bool) :
    (p.lower device links).SparesLabels ∧
      ∃ c, ∃ marks : List Mark, (p.lower device links).labels = marks.map Mark.text ∧
        ∀ m, marks.count m ≤ if (p.procedures.map (·.name.value)).Nodup then
          tally p.procedures p.labels p.standing {} c m else 0 := by
  obtain ⟨c, marks, hdef, hcount⟩ := p.lays_program hconstructs device links
  have hlower : p.lower device links = Build.program p { globals := { device }, links } >>=
      fun x => pure x.1 := map_eq_pure_bind _ _
  rw [hlower]
  refine ⟨hdef.fault.bind fun x _ => (quiet_pure _).fault, c, marks, ?_, hcount⟩
  cases ho : (Build.program p { globals := { device }, links }).outcome with
  | error e => rw [labels_bind_error ho, hdef.labels]
  | ok x => rw [labels_bind_ok ho, hdef.labels, (quiet_pure x.1).labels, List.append_nil]

end Avr
