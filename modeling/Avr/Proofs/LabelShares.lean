import Mathlib.Data.List.Flatten
import Mathlib.Data.List.Nodup
import Avr.Proofs.QuietCode
import Avr.Proofs.StatementRules

namespace Avr

namespace Procedure

/-- The global labels of the body. -/
def globals (p : Procedure) : List String := p.occurrences.filterMap Occurrence.global?

/-- Its local labels. -/
def inners (p : Procedure) : List String := p.occurrences.filterMap Occurrence.inner?

/-- Its constructs, each with the line that it starts on. -/
def constructs (p : Procedure) : List (Construct × Nat) :=
  p.occurrences.filterMap Occurrence.construct?

end Procedure

/-- The procedures that are expanded for something in a body: the one that is called, and those that
its body calls in turn. A procedure is not expanded inside itself. -/
def expansionsUpTo (ps : List Procedure) : Nat → List String → Occurrence → List Procedure
  | depth + 1, active, .call name =>
    match ps.find? (·.name.value = name) with
    | some q =>
      if q.inline ∧ name ∉ active then
        q :: q.occurrences.flatMap (expansionsUpTo ps depth (name :: active))
      else []
    | none => []
  | _, _, _ => []

namespace Stem

/-- The first expansion on the way from here to there. -/
def next? (s t : Stem) : Option Nat :=
  if s.procedure = t.procedure ∧ s.expansions <+: t.expansions then
    t.expansions[s.expansions.length]?
  else none

theorem next_self (s : Stem) : s.next? s = none := by
  simp [next?]

theorem next_expand (s : Stem) (n : Nat) : s.next? (s.expand n) = some n := by
  simp [next?, expand]

theorem next_of_expand {s t : Stem} {n k : Nat} (h : (s.expand n).next? t = some k) :
    s.next? t = some n := by
  unfold next? at h
  split at h
  · next hpre =>
    obtain ⟨hname, rest, hrest⟩ := hpre
    change s.procedure = t.procedure at hname
    change s.expansions ++ [n] ++ rest = t.expansions at hrest
    have hpre : s.expansions <+: t.expansions := ⟨[n] ++ rest, by rw [← hrest, List.append_assoc]⟩
    rw [next?, if_pos ⟨hname, hpre⟩, ← hrest]
    simp
  · cases h

end Stem

namespace Counters

/-- Counts on. -/
structure Le (p c : Counters) : Prop where
  probes : p.probes ≤ c.probes
  inlined : p.inlined ≤ c.inlined

theorem Le.refl (p : Counters) : p.Le p := ⟨Nat.le_refl _, Nat.le_refl _⟩

theorem Le.trans {p c d : Counters} (h : p.Le c) (hd : c.Le d) : p.Le d :=
  ⟨Nat.le_trans h.probes hd.probes, Nat.le_trans h.inlined hd.inlined⟩

/-- An expansion with a number between the two leads from here to there. -/
def leads (p c : Counters) (s t : Stem) : Bool :=
  (s.next? t).any fun n => p.inlined ≤ n && n < c.inlined

end Counters

/-- How often a local label stands in one inline body at most. -/
def innerMost (ps : List Procedure) (name : String) : Nat :=
  (ps.filter (·.inline)).foldr (fun q n => max (q.inners.count name) n) 0

theorem le_innerMost {ps : List Procedure} {q : Procedure} (hq : q ∈ ps) (hi : q.inline)
    (name : String) : q.inners.count name ≤ innerMost ps name := by
  have hmem : q ∈ ps.filter (·.inline) := by simp [hq, hi]
  unfold innerMost
  generalize ps.filter (·.inline) = qs at hmem
  induction qs with
  | nil => cases hmem
  | cons r qs ih =>
    rcases List.mem_cons.mp hmem with rfl | hmem
    · exact Nat.le_max_left _ _
    · exact Nat.le_trans (ih hmem) (Nat.le_max_right _ _)

theorem exists_of_innerMost {ps : List Procedure} {name : String} {n : Nat}
    (h : n < innerMost ps name) : ∃ q ∈ ps, q.inline ∧ n < q.inners.count name := by
  have hfold (qs : List Procedure)
      (h : n < qs.foldr (fun q n => max (q.inners.count name) n) 0) :
      ∃ q ∈ qs, n < q.inners.count name := by
    induction qs with
    | nil => cases h
    | cons r qs ih =>
      have hmax : n < r.inners.count name ∨
          n < qs.foldr (fun q n => max (q.inners.count name) n) 0 := by
        rw [List.foldr_cons] at h
        omega
      rcases hmax with h | h
      · exact ⟨r, List.mem_cons_self, h⟩
      · obtain ⟨q, hq, hn⟩ := ih h
        exact ⟨q, List.mem_cons_of_mem _ hq, hn⟩
  obtain ⟨q, hq, hn⟩ := hfold _ h
  obtain ⟨hq, hi⟩ := List.mem_filter.mp hq
  exact ⟨q, hq, hi, hn⟩

section Share

variable (ps : List Procedure) (reach : Occurrence → List Procedure)

/-- How often code that is lowered at a stem for these parts of a body may define a label, while the
counters go from `p` to `c`. -/
def share (s : Stem) (os : List Occurrence) (p c : Counters) : Mark → Nat
  | .global name =>
    (os.filterMap Occurrence.global? ++ (os.flatMap reach).flatMap Procedure.globals).count name
  | .inner t name =>
    if t = s then (os.filterMap Occurrence.inner?).count name
    else if p.leads c s t then innerMost ps name else 0
  | .construct t kind line _ =>
    if t = s then (os.filterMap Occurrence.construct?).count (kind.construct, line)
    else if p.leads c s t then 1 else 0
  | .probe n _ => if p.probes ≤ n ∧ n < c.probes then 1 else 0

variable {ps reach} {s : Stem} {os os' : List Occurrence} {p c d : Counters}

theorem leads_split (hp : p.Le c) (hc : c.Le d) (s t : Stem) :
    (p.leads d s t = (p.leads c s t || c.leads d s t)) ∧
      ¬ (p.leads c s t ∧ c.leads d s t) := by
  unfold Counters.leads
  cases s.next? t with
  | none => simp
  | some n =>
    have := hp.inlined
    have := hc.inlined
    simp
    grind

/-- Shares add up. -/
theorem share_append (hp : p.Le c) (hc : c.Le d) (m : Mark) :
    share ps reach s os p c m + share ps reach s os' c d m ≤
      share ps reach s (os ++ os') p d m := by
  cases m with
  | global name =>
    simp only [share, List.filterMap_append, List.flatMap_append, List.count_append]
    omega
  | inner t name =>
    obtain ⟨hsplit, honce⟩ := leads_split hp hc s t
    simp only [share, List.filterMap_append, List.count_append, hsplit]
    grind
  | construct t kind line way =>
    obtain ⟨hsplit, honce⟩ := leads_split hp hc s t
    simp only [share, List.filterMap_append, List.count_append, hsplit]
    grind
  | probe n stops =>
    have := hp.probes
    have := hc.probes
    simp only [share]
    grind

theorem share_sublist (h : os.Sublist os') (m : Mark) :
    share ps reach s os p c m ≤ share ps reach s os' p c m := by
  cases m with
  | global name =>
    exact List.Sublist.count_le _
      ((h.filterMap _).append ((h.flatMap _).flatMap _))
  | inner t name =>
    simp only [share]
    split
    · exact (h.filterMap _).count_le _
    · exact Nat.le_refl _
  | construct t kind line way =>
    simp only [share]
    split
    · exact (h.filterMap _).count_le _
    · exact Nat.le_refl _
  | probe n stops => exact Nat.le_refl _

end Share

section Lays

open Trace

variable {σ : Type} {read : σ → Counters} {inv : σ → Prop} {p : σ}

/-- Just these labels are defined, up to the end or the first fault, which is not about a label. The
counters go from `p` to `c`. -/
structure Defines (read : σ → Counters) (inv : σ → Prop) (t : Trace (α × σ)) (p c : Counters)
    (marks : List Mark) : Prop where
  labels : t.labels = marks.map Mark.text
  le : p.Le c
  result : ∀ a q, t.outcome = .ok (a, q) → read q = c ∧ inv q
  fault : t.SparesLabels

/-- A bound on how often each label is defined, by the counters at the end. -/
def Lays (read : σ → Counters) (inv : σ → Prop) (code : StateT σ Trace α) (p : σ)
    (bound : Counters → Mark → Nat) : Prop :=
  ∃ c marks, Defines read inv (code p) (read p) c marks ∧ ∀ m, marks.count m ≤ bound c m

theorem Lays.mono {code : StateT σ Trace α} {b b' : Counters → Mark → Nat}
    (h : Lays read inv code p b) (hb : ∀ c m, (read p).Le c → b c m ≤ b' c m) :
    Lays read inv code p b' := by
  obtain ⟨c, marks, hdef, hcount⟩ := h
  exact ⟨c, marks, hdef, fun m => Nat.le_trans (hcount m) (hb c m hdef.le)⟩

/-- Bounds add up along a sequence. -/
theorem Lays.bind {code : StateT σ Trace α} {f : α → StateT σ Trace β} {inv' : σ → Prop}
    {b b' : Counters → Mark → Nat} {k : Counters → Counters → Mark → Nat}
    (h : Lays read inv code p b)
    (hf : ∀ a q, (code p).outcome = .ok (a, q) → inv q → Lays read inv' (f a) q (k (read q)))
    (hb : ∀ c d m, (read p).Le c → c.Le d → b c m + k c d m ≤ b' d m) :
    Lays read inv' (code >>= f) p b' := by
  obtain ⟨c, marks, hdef, hcount⟩ := h
  cases ho : (code p).outcome with
  | error e =>
    have hrun : (code >>= f) p = ⟨(code p).emitted, (code p).warnings, .error e⟩ := bind_error ho
    refine ⟨c, marks, ⟨?_, hdef.le, ?_, ?_⟩, fun m => ?_⟩
    · rw [hrun]
      exact hdef.labels
    · intro a q hq
      rw [hrun] at hq
      cases hq
    · intro l name he
      rw [hrun] at he
      cases he
      exact hdef.fault l name ho
    · have hadd := hb c c m hdef.le (.refl c)
      have hm := hcount m
      omega
  | ok x =>
    obtain ⟨a, q⟩ := x
    obtain ⟨hread, hinv⟩ := hdef.result a q ho
    obtain ⟨d, marks', hdef', hcount'⟩ := hf a q ho hinv
    rw [hread] at hdef' hcount'
    have hrun : (code >>= f) p = ⟨(code p).emitted ++ (f a q).emitted,
      (code p).warnings ++ (f a q).warnings, (f a q).outcome⟩ := bind_ok ho
    refine ⟨d, marks ++ marks', ⟨?_, hdef.le.trans hdef'.le, ?_, ?_⟩, fun m => ?_⟩
    · rw [hrun, List.map_append, ← hdef.labels, ← hdef'.labels]
      exact List.filterMap_append
    · rw [hrun]
      exact hdef'.result
    · rw [hrun]
      exact hdef'.fault
    · have hadd := hb c d m hdef.le hdef'.le
      have hm := hcount m
      have hm' := hcount' m
      rw [List.count_append]
      omega

theorem lays_quiet {τ : Type} {view : σ → τ} {code : StateT σ Trace α}
    (h : QuietAt view code p) (hview : ∀ q, view q = view p → read q = read p ∧ inv q)
    (b : Counters → Mark → Nat) : Lays read inv code p b :=
  ⟨read p, [], ⟨h.quiet.labels, .refl _, fun a q hq => hview q (h.keeps a q hq), h.quiet.fault⟩,
    fun _ => Nat.zero_le _⟩

/-- What has no label in it adds nothing to what comes after. -/
theorem Lays.quiet_bind {code : StateT σ Trace α} {f : α → StateT σ Trace β} {τ : Type}
    {view : σ → τ} {b : Counters → Mark → Nat} (h : QuietAt view code p)
    (hview : ∀ q, view q = view p → read q = read p)
    (hf : ∀ a q, (code p).outcome = .ok (a, q) → view q = view p → Lays read inv (f a) q b) :
    Lays read inv (code >>= f) p b :=
  Lays.bind (k := fun _ => b) (lays_quiet h (fun q hq => ⟨hview q hq, hq⟩) fun _ _ => 0) hf
    fun _ _ _ _ _ => Nat.le_of_eq (Nat.zero_add _)

/-- A change of the state that counts on defines nothing. -/
theorem Lays.of_run {code code' : StateT σ Trace α} {q : σ} {b : Counters → Mark → Nat}
    (h : Lays read inv code' q b) (hrun : code p = code' q) (hle : (read p).Le (read q)) :
    Lays read inv code p b := by
  obtain ⟨c, marks, hdef, hcount⟩ := h
  refine ⟨c, marks, ?_, hcount⟩
  rw [hrun]
  exact ⟨hdef.labels, hle.trans hdef.le, hdef.result, hdef.fault⟩

theorem lays_define {m : Mark} {l : Location} {name : String} (hname : name = m.text)
    (hinv : inv p) :
    Lays read inv (liftM (define l name) : StateT σ Trace Unit) p fun _ n => [m].count n := by
  refine ⟨read p, [m], ⟨?_, .refl _, fun a q hq => ?_, fun _ _ h => by cases h⟩,
    fun _ => Nat.le_refl _⟩
  · rw [hname]
    rfl
  · rw [(lift_outcome hq).2]
    exact ⟨rfl, hinv⟩

end Lays

end Avr
