import Avr.Proofs.LabelShares

namespace Avr

section Statements

open Trace

variable (ps : List Procedure) (reach : Occurrence → List Procedure) (s : Stem) (line : Nat)

/-- How often the construct on this line has a label, if it has those of the given kinds. -/
def times (kinds : List Kind) : Mark → Nat
  | .construct t kind n _ => if t = s ∧ n = line then kinds.count kind else 0
  | _ => 0

/-- From every state, the code has labels of these kinds for the construct on this line, each once,
and its share in the parts of the body. -/
def Counted (kinds : List Kind) (os : List Occurrence) (code : Lowering α) : Prop :=
  ∀ p : Progress, Lays Progress.toCounters (fun _ => True) code p fun c m =>
    times s line kinds m + share ps reach s os p.toCounters c m

variable {ps reach s line} {kinds kinds' : List Kind} {os os' : List Occurrence}

theorem times_nil (m : Mark) : times s line [] m = 0 := by
  cases m <;> simp [times]

theorem times_append (m : Mark) :
    times s line (kinds ++ kinds') m = times s line kinds m + times s line kinds' m := by
  cases m <;> simp [times]
  grind

theorem Counted.bind {code : Lowering α} {f : α → Lowering β}
    (h : Counted ps reach s line kinds os code)
    (hf : ∀ a, Counted ps reach s line kinds' os' (f a)) :
    Counted ps reach s line (kinds ++ kinds') (os ++ os') (code >>= f) := by
  intro p
  refine Lays.bind (k := fun e c m => times s line kinds' m + share ps reach s os' e c m) (h p)
    (fun a q _ _ => hf a q) ?_
  intro c d m hp hc
  have hshare : share ps reach s os p.toCounters c m + share ps reach s os' c d m ≤
      share ps reach s (os ++ os') p.toCounters d m := share_append hp hc m
  rw [times_append]
  omega

theorem counted_quiet {code : Lowering α} (h : Lowering.Quiet code) :
    Counted ps reach s line [] [] code :=
  fun p => lays_quiet (h p) (fun _ hq => ⟨hq, trivial⟩) _

theorem counted_define {l : Location} {kind : Kind} {name : String}
    (hname : name = (Mark.construct s kind line []).text) :
    Counted ps reach s line [kind] [] (liftM (define l name) : Lowering Unit) := by
  intro p
  refine (lays_define hname trivial).mono fun c m _ => ?_
  by_cases hm : m = .construct s kind line []
  · simp [hm, times]
  · rw [List.count_eq_zero.mpr (by simpa using hm)]
    exact Nat.zero_le _

/-- More parts of the body leave more room. -/
theorem Counted.sublist {code : Lowering α} (h : Counted ps reach s line kinds os code)
    (hos : os.Sublist os') : Counted ps reach s line kinds os' code := by
  intro p
  exact (h p).mono fun c m _ => Nat.add_le_add_left (share_sublist hos m) _

/-- A construct has one label of each kind, so all of them are accounted for by the construct. -/
theorem Counted.construct {code : Lowering α} {c : Construct}
    (h : Counted ps reach s line kinds os code) (hdistinct : kinds.Nodup)
    (hkinds : ∀ kind ∈ kinds, kind.construct = c) (hos : os.Sublist os') (n : Nat) :
    Counted ps reach s n [] (.construct c line :: os') code := by
  intro p
  refine ((h.sublist hos) p).mono fun d m _ => ?_
  have hshare : share ps reach s os' p.toCounters d m ≤
      share ps reach s (.construct c line :: os') p.toCounters d m :=
    share_sublist (List.sublist_cons_self _ _) m
  rw [times_nil, Nat.zero_add]
  cases m with
  | construct t kind k way =>
    by_cases ht : t = s ∧ k = line
    · obtain ⟨rfl, rfl⟩ := ht
      by_cases hmem : kind ∈ kinds
      · have hone : kinds.count kind = 1 := hdistinct.count.trans (if_pos hmem)
        simp [times, share, hone, Occurrence.construct?, hkinds kind hmem]
        omega
      · simpa [times, List.count_eq_zero.mpr hmem] using hshare
    · simpa [times, ht] using hshare
  | _ => simpa [times] using hshare

theorem lays_tests {sc : Scope} {l : Location} {ts : List Test} {marks : List Mark}
    (hlabels : ts.filterMap Test.label? = marks.map Mark.text)
    (hjumps : ∀ code, .jump code ∈ ts → code.SparesLabels) (p : Progress) :
    Lays Progress.toCounters (fun _ => True) (ts.forM fun
      | .jump code => sc.place l code
      | .label name => define l name) p fun _ m => marks.count m := by
  induction ts generalizing marks p with
  | nil =>
    exact lays_quiet (quietFrom_pure _ p : QuietAt Progress.toCounters _ p)
      (fun _ hq => ⟨hq, trivial⟩) _
  | cons t ts ih =>
    have hrest : ∀ code, .jump code ∈ ts → code.SparesLabels :=
      fun code h => hjumps code (List.mem_cons_of_mem _ h)
    cases t with
    | jump code =>
      have hplace := sc.quiet_place l (hjumps code List.mem_cons_self)
      exact Lays.quiet_bind (hplace p) (fun _ hq => hq) fun _ q _ _ => ih hlabels hrest q
    | label name =>
      obtain ⟨m, marks, rfl, hm, hmarks⟩ := List.map_eq_cons_iff.mp hlabels.symm
      have hdefine : Lays Progress.toCounters (fun _ => True)
          (liftM (define l name) : Lowering Unit) p fun _ n => [m].count n :=
        lays_define hm.symm trivial
      refine hdefine.bind (k := fun _ _ n => marks.count n)
        (fun _ q _ _ => ih hmarks.symm hrest q) fun _ _ n _ _ => ?_
      rw [← List.count_append]
      exact Nat.le_refl _

/-- A condition has a label for each way out of it, and no two ways are the same. -/
theorem counted_gotoIf {sc : Scope} (hs : sc.stem = s.text) (l : Location) (kind : Kind)
    (truth : Bool) (v : Value) (target : LabelRef) :
    Counted ps reach s l.start.line [kind] []
      (sc.gotoIf l truth v target (sc.generated kind.text l)) := by
  intro p
  let marks := (Test.ways truth v).map (Mark.construct s kind l.start.line)
  have hdistinct : marks.Nodup :=
    (Test.nodup_ways truth v).map fun _ _ h => by cases h; rfl
  have hlabels : (Test.jumps truth v target (sc.generated kind.text l)).filterMap Test.label? =
      marks.map Mark.text := by
    rw [Scope.generated_text hs, Test.labels_jumps]
    simp [marks, Function.comp_def, Mark.text_follow]
  refine (lays_tests hlabels (fun code => Test.sparesLabels_jumps) p).mono fun c m _ => ?_
  by_cases hm : m ∈ marks
  · have hone : marks.count m = 1 := hdistinct.count.trans (if_pos hm)
    obtain ⟨way, _, rfl⟩ := List.mem_map.mp hm
    simp [hone, times]
  · rw [List.count_eq_zero.mpr hm]
    exact Nat.zero_le _

/-- A label of the source is defined as it stands there. -/
theorem counted_label {sc : Scope} (hs : sc.stem = s.text) (l : Location) (line : Nat)
    (name : String) (global : Bool) :
    Counted ps reach s line [] [if global then .globalLabel name else .innerLabel name]
      (liftM (define l (if global then name else sc.stem ++ "@" ++ name)) : Lowering Unit) := by
  intro p
  cases global with
  | true =>
    refine (lays_define (Mark.text_global name).symm trivial).mono fun c m _ => ?_
    cases m with
    | global other => simp [times, share, Occurrence.global?, List.count_cons]
    | _ => simp
  | false =>
    have hname : sc.stem ++ "@" ++ name = (Mark.inner s name).text := by
      rw [hs, Mark.text_inner]
    refine (lays_define hname trivial).mono fun c m _ => ?_
    cases m with
    | inner t other =>
      by_cases ht : t = s
      · simp [times, share, Occurrence.inner?, ht, List.count_cons]
      · rw [List.count_eq_zero.mpr (by simp [ht])]
        exact Nat.zero_le _
    | _ => simp

end Statements

section Limits

open Trace

variable {p : Progress} {body : Lowering α} {b b' : Counters → Mark → Nat}

theorem quiet_checkLimit (maxInstructions maxBytes : Nat) (l : Location) (probe found : Nat) :
    (checkLimit maxInstructions maxBytes l probe found).Quiet := by
  refine quiet_bind (by simp [Emission.label?]) fun _ => ?_
  split
  · simp
  · split
    · exact quiet_throw (by simp)
    · exact quiet_throw (by simp)

/-- Limited code has two labels more, named by a number that the code inside does not use. -/
theorem lays_limited {maxInstructions maxBytes : Nat} {l : Location}
    (h : Lays Progress.toCounters (fun _ => True) body { p with probes := p.probes + 1 } b)
    (hb : ∀ c m, p.probes + 1 ≤ c.probes → p.inlined ≤ c.inlined →
      [Mark.probe p.probes false, Mark.probe p.probes true].count m + b c m ≤ b' c m) :
    Lays Progress.toCounters (fun _ => True) (Lowering.limited maxInstructions maxBytes l body) p
      b' := by
  obtain ⟨c, marks, hdef, hcount⟩ := h
  have hrun := Lowering.limited_eq maxInstructions maxBytes l body p
  have hle : p.toCounters.Le c := ⟨Nat.le_of_succ_le hdef.le.probes, hdef.le.inlined⟩
  have hlabels : (body { p with probes := p.probes + 1 }).labels = marks.map Mark.text :=
    hdef.labels
  cases ho : (body { p with probes := p.probes + 1 }).outcome with
  | error e =>
    refine ⟨c, .probe p.probes false :: marks, ⟨?_, hle, ?_, ?_⟩, ?_⟩
    · rw [hrun, labels_bind_ok rfl, labels_bind_error ho, hlabels, List.map_cons, Mark.text_probe]
      rfl
    · intro a q hq
      rw [hrun, bind_ok rfl, bind_error ho] at hq
      cases hq
    · intro l' name hf
      rw [hrun, bind_ok rfl, bind_error ho] at hf
      cases hf
      exact hdef.fault l' name ho
    · intro m
      have hbound := hb c m hdef.le.probes hdef.le.inlined
      have hm := hcount m
      simp only [List.count_cons, List.count_nil] at hbound ⊢
      omega
  | ok x =>
    have hcheck := quiet_checkLimit maxInstructions maxBytes l p.probes
      ((body { p with probes := p.probes + 1 }).emitted.countP Emission.isInstruction)
    have hquiet := quiet_bind hcheck fun _ => quiet_pure x
    refine ⟨c, .probe p.probes false :: (marks ++ [.probe p.probes true]), ⟨?_, hle, ?_, ?_⟩, ?_⟩
    · rw [hrun, labels_bind_ok rfl, labels_bind_ok ho, labels_bind_ok rfl, hlabels, hquiet.labels]
      simp only [List.map_cons, List.map_append, List.map_nil, List.append_nil, Mark.text_probe]
      rfl
    · intro a q hq
      rw [hrun, bind_ok rfl, bind_ok ho, bind_ok rfl] at hq
      obtain ⟨_, -, hx⟩ := bind_eq_ok hq
      exact hdef.result a q (ho.trans hx)
    · intro l' name hf
      rw [hrun, bind_ok rfl, bind_ok ho, bind_ok rfl] at hf
      exact hquiet.fault l' name hf
    · intro m
      have hbound := hb c m hdef.le.probes hdef.le.inlined
      have hm := hcount m
      simp only [List.count_cons, List.count_nil, List.count_append] at hbound ⊢
      omega

theorem counted_limited {ps : List Procedure} {reach : Occurrence → List Procedure} {s : Stem}
    {line : Nat} {kinds : List Kind} {os : List Occurrence} (maxInstructions maxBytes : Nat)
    (l : Location) (h : Counted ps reach s line kinds os body) :
    Counted ps reach s line kinds os (Lowering.limited maxInstructions maxBytes l body) := by
  intro p
  refine lays_limited (h _) fun c m hprobes _ => ?_
  cases m with
  | probe n stops =>
    simp only [share, times, List.count_cons, List.count_nil]
    grind
  | _ =>
    rw [List.count_eq_zero.mpr (by simp), Nat.zero_add]
    exact Nat.le_refl _

end Limits

/-- So each statement keeps to its share. -/
theorem counted_rules {ps : List Procedure} {reach : Occurrence → List Procedure} {s : Stem} :
    StatementRules s fun line kinds os _ => Counted ps reach s line kinds os where
  plain h := counted_quiet h.quiet
  use sc a := counted_quiet (sc.quiet_use a)
  bind h hf := h.bind hf
  limited := counted_limited
  label hs l name global := counted_label hs l _ name global
  generated hs l kind := counted_define (Scope.generated_text hs kind l)
  gotoIf := counted_gotoIf
  construct := Counted.construct

section Calls

open Trace

variable {ps : List Procedure} {s : Stem} {active : List String} {sc : Scope}
  {f : Location → Procedure → Scope → Lowering Unit}

/-- A call has the labels of the body that is expanded for it. -/
theorem lays_inlineCall (hs : sc.Stands ps s active) {l : Location} {call : Call Expr}
    {p : Progress} {b : Counters → Mark → Nat}
    (hexpand : ∀ q sc', ps.find? (·.name.value = call.name.value) = some q → q.inline →
      call.name.value ∉ active → sc'.Stands ps (s.expand p.inlined) (call.name.value :: active) →
      ∃ b', Lays Progress.toCounters (fun _ => True) (f l q sc')
          ⟨⟨p.probes, p.inlined + 1⟩, []⟩ b' ∧
        ∀ c d m, p.inlined < c.inlined → c.Le d → b' c m ≤ b d m) :
    Lays Progress.toCounters (fun _ => True) (sc.inlineCall f l call) p b := by
  refine Lays.quiet_bind (quietAt_lift (sc.quiet_inlineProcedure l call.name.value))
    (fun _ hq => hq) fun q r hq _ => ?_
  obtain ⟨hfound, rfl⟩ := lift_outcome hq
  obtain ⟨hfind, hinline, hname, hactive⟩ := hs.inlineProcedure hfound
  refine Lays.quiet_bind (sc.quiet_bindArguments q call l r) (fun _ hq => hq)
    fun _ t _ hcounters => ?_
  have hstands := hs.expanded q t.inlined (t.aliases ++ sc.outer)
  have hprobes : t.probes = r.probes := congrArg Counters.probes hcounters
  have hinlined : t.inlined = r.inlined := congrArg Counters.inlined hcounters
  rw [hname] at hstands
  rw [← hprobes, ← hinlined] at hexpand
  obtain ⟨b', hbody, hb⟩ := hexpand q _ hfind hinline hactive hstands
  have hrestore (u : Progress) : Lays Progress.toCounters (fun _ => True)
      (modify fun inner => { inner with aliases := t.aliases } : Lowering PUnit) u
      fun _ _ => 0 :=
    lays_quiet (quietAt_modify rfl : QuietAt Progress.toCounters _ u)
      (fun _ hq => ⟨hq, trivial⟩) _
  have hrest := hbody.bind (k := fun _ _ _ => 0) (fun _ u _ _ => hrestore u)
    fun c d m hc hd => hb c d m hc.inlined hd
  exact hrest.of_run rfl ⟨Nat.le_refl _, Nat.le_succ _⟩

end Calls

/-- The labels of an expansion are in the share of its call. -/
theorem share_call {ps : List Procedure} {s : Stem} {active : List String} {depth : Nat}
    {name : String} {q : Procedure} {p c d : Counters}
    (hfind : ps.find? (·.name.value = name) = some q) (hinline : q.inline)
    (hactive : name ∉ active) (hconstructs : q.constructs.Nodup) (hc : p.inlined < c.inlined)
    (hd : c.Le d) (m : Mark) :
    share ps (expansionsUpTo ps depth (name :: active)) (s.expand p.inlined) q.occurrences
        ⟨p.probes, p.inlined + 1⟩ c m ≤
      share ps (expansionsUpTo ps (depth + 1) active) s [.call name] p d m := by
  -- A label at or below the expansion has its number first on the way from here, and no other call
  -- uses that number.
  have hnest (t : Stem) {n w : Nat} (k : Nat) (hn : n ≤ w) :
      (if t = s.expand p.inlined then n
        else if Counters.leads ⟨p.probes, p.inlined + 1⟩ c (s.expand p.inlined) t then w else 0) ≤
      if t = s then k else if p.leads d s t then w else 0 := by
    have hbelow (hsome : s.next? t = some p.inlined) : t ≠ s ∧ p.leads d s t := by
      refine ⟨?_, ?_⟩
      · intro ht
        rw [ht, Stem.next_self] at hsome
        cases hsome
      · simp [Counters.leads, hsome, Nat.lt_of_lt_of_le hc hd.inlined]
    split
    · next ht =>
      obtain ⟨hne, hleads⟩ := hbelow (by rw [ht, Stem.next_expand])
      rwa [if_neg hne, if_pos hleads]
    · split
      · next hleads =>
        obtain ⟨k, hk⟩ : ∃ k, (s.expand p.inlined).next? t = some k := by
          rw [← Option.isSome_iff_exists]
          exact Option.isSome_of_any hleads
        obtain ⟨hne, hleads⟩ := hbelow (Stem.next_of_expand hk)
        exact Nat.le_of_eq (by rw [if_neg hne, if_pos hleads])
      · exact Nat.zero_le _
  cases m with
  | global g =>
    simp [share, expansionsUpTo, hfind, hinline, hactive, Occurrence.global?, Procedure.globals]
  | inner t x => exact hnest t _ (le_innerMost (List.mem_of_find?_eq_some hfind) hinline x)
  | construct t kind line way => exact hnest t _ (List.nodup_iff_count_le_one.mp hconstructs _)
  | probe n stops =>
    have := hd.probes
    simp only [share]
    grind

/-- A body has its share, and so do the bodies that are expanded inside, however deep. -/
theorem counted_body {ps : List Procedure} (hconstructs : ∀ q ∈ ps, q.constructs.Nodup)
    (depth : Nat) {s : Stem} {active : List String} {sc : Scope} (hs : sc.Stands ps s active)
    (body : List (Located Stmt)) (line : Nat) :
    Counted ps (expansionsUpTo ps depth active) s line [] (listOccurrences body)
      (sc.lowerAll (Scope.expandUpTo depth) body) := by
  -- On the depth that is left for expansions. The body of a call is lowered with one less, at a
  -- stem of its own.
  induction depth generalizing s active sc body line with
  | zero =>
    refine counted_rules.lowerAll (fun sc l call line hs p => ?_) hs body line
    refine lays_inlineCall hs fun q sc' _ _ _ _ =>
      ⟨fun _ _ => 0, ?_, fun _ _ _ _ _ => Nat.zero_le _⟩
    exact lays_quiet (Trace.quietAt_lift (by simp)) (fun _ hq => ⟨hq, trivial⟩) _
  | succ depth ih =>
    refine counted_rules.lowerAll (fun sc l call line hs p => ?_) hs body line
    refine lays_inlineCall hs fun q sc' hfind hinline hactive hs' =>
      ⟨_, ih hs' q.body line _, fun c d m hc hd => ?_⟩
    have hq := hconstructs q (List.mem_of_find?_eq_some hfind)
    rw [times_nil, times_nil, Nat.zero_add, Nat.zero_add]
    exact share_call hfind hinline hactive hq hc hd m

end Avr
