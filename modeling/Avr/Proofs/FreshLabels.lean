import Mathlib.Data.List.Perm.Subperm
import Avr.Proofs.JumpTargets
import Avr.Proofs.LabelTally

namespace Avr

namespace Outputs

/-- A label is refused only if its name is known. -/
theorem emit_error {o : Outputs} {e : Emission} {x : Located Error} (h : o.emit e = .error x) :
    ∃ n, e.label? = some n ∧ x.value = .semantic (.labelDefined n) ∧
      n ∈ o.layout.labels.map Prod.fst := by
  unfold emit at h
  split at h
  · cases h
  · cases e with
    | label name =>
      rcases Outcome.bind_error.mp h with hl | ⟨m, _, h⟩
      · unfold Layout.label at hl
        split at hl
        · next hfound =>
          cases hl
          obtain ⟨a, ha, hname⟩ := List.lookup_isSome_iff.mp hfound
          exact ⟨name.value, rfl, rfl, List.mem_map.mpr ⟨a, ha, (eq_of_beq hname).symm⟩⟩
        · cases hl
      · cases h
    | _ => cases h

/-- No name becomes known but by its label. -/
theorem emit_labels {o p : Outputs} {e : Emission} (h : o.emit e = .ok p) (n : String) :
    (p.layout.labels.map Prod.fst).count n ≤
      (e.label?.toList ++ o.layout.labels.map Prod.fst).count n := by
  have haccepts : ((o.layout.accepts e).toList).count n ≤ e.label?.toList.count n := by
    cases e with
    | label name =>
      simp only [Layout.accepts]
      split
      · exact Nat.le_refl _
      · exact Nat.zero_le _
    | _ => exact Nat.zero_le _
  rw [List.count_append]
  rcases emit_layout h with hl | hl
  · rw [hl]
    exact Nat.le_add_left _ _
  · have hattempt : o.layout.attempt e = p.layout := by rw [Layout.attempt, hl]
    rw [← hattempt, Layout.names_attempt, List.count_append]
    exact Nat.add_le_add_right haccepts _

/-- If a label is refused, then its name is among the names that are defined, twice. -/
theorem emitAll_error {o : Outputs} {es : List Emission} {x : Located Error}
    (h : o.emitAll es = .error x) :
    ∃ n, x.value = .semantic (.labelDefined n) ∧
      1 < (o.layout.labels.map Prod.fst ++ es.filterMap Emission.label?).count n := by
  induction es generalizing o with
  | nil => cases h
  | cons e es ih =>
    have hcons : (e :: es).filterMap Emission.label? =
        e.label?.toList ++ es.filterMap Emission.label? := by
      cases he : e.label? with
      | none => simp [he]
      | some n => simp [he]
    simp only [hcons, List.count_append]
    cases ho : o.emit e with
    | error y =>
      obtain ⟨n, hn, hy, hmem⟩ := emit_error ho
      have hpos := List.count_pos_iff.mpr hmem
      rw [emitAll, List.foldlM_cons, ho] at h
      cases h
      refine ⟨n, hy, ?_⟩
      simp only [hn, Option.toList_some, List.count_singleton_self]
      omega
    | ok p =>
      rw [emitAll, List.foldlM_cons, ho] at h
      obtain ⟨n, hx, hcount⟩ := ih h
      have hlabels := emit_labels ho n
      rw [List.count_append] at hcount hlabels
      exact ⟨n, hx, by omega⟩

end Outputs

/-- A label that is refused is defined twice, unless the lowering itself refuses it. -/
theorem compile_labelDefined {device : Device} {program : Program} {formats : List Format}
    {options : OutputOptions} {l : Location} {n : String}
    (hspares : ∀ links, (program.lower device links).SparesLabels)
    (h : compile device program (.ofFormats formats options) =
      .error ⟨l, .semantic (.labelDefined n)⟩) :
    ∃ links, 1 < (program.lower device links).labels.count n := by
  let links := (Outputs.ofFormats formats options).linksExternals
  refine ⟨links, ?_⟩
  rcases Outcome.bind_error.mp h with ho | ⟨o, _, h⟩
  · obtain ⟨n', hn, hcount⟩ := Outputs.emitAll_error ho
    cases hn
    exact hcount
  · rcases Outcome.bind_error.mp h with hout | ⟨_, _, h⟩
    · exact (hspares links l n hout).elim
    · cases h

namespace Mark

/-- A name that is found twice among labels that can be read back is that of a label that is there
twice. -/
theorem exists_twice {marks : List Mark} (hproper : ∀ m ∈ marks, m.Proper) {n : String}
    (h : 1 < (marks.map text).count n) : ∃ m ∈ marks, m.text = n ∧ 1 < marks.count m := by
  obtain ⟨m, hm, rfl⟩ := List.mem_map.mp (List.count_pos_iff.mp (Nat.zero_lt_of_lt h))
  refine ⟨m, hm, rfl, ?_⟩
  have hsame : (marks.map text).count m.text = marks.count m := by
    rw [List.count, List.countP_map, List.count]
    refine List.countP_congr fun k hk => ?_
    simp only [Function.comp, beq_iff_eq]
    exact ⟨text_inj (hproper k hk) (hproper m hm), congrArg text⟩
  rwa [← hsame]

/-- Labels of the source. -/
def IsWritten : Mark → Prop
  | global _ | inner _ _ => True
  | construct .. | probe .. => False

/-- Their names have at most one `@`, and generated names have more. -/
theorem IsWritten.ne_generated {m : Mark} (h : m.IsWritten) (hm : m.Proper) (s : Scope)
    (kind : String) (l : Location) (rest : String) : m.text ≠ s.generated kind l ++ rest := by
  have hgenerated : 2 ≤ (s.generated kind l ++ rest).toList.count '@' := by
    have hat : "@".toList.count '@' = 1 := rfl
    simp only [Scope.generated, String.toList_append, List.count_append]
    omega
  have hone : m.text.toList.count '@' ≤ 1 := by
    cases m with
    | global name =>
      rw [text_global, List.count_eq_zero.mpr hm.1]
      exact Nat.zero_le 1
    | inner t name =>
      have hstem := List.count_eq_zero.mpr (Stem.at_not_mem_text hm.1.1.1)
      have hname := List.count_eq_zero.mpr hm.2.1
      simp [text_inner, hstem, hname]
    | construct => exact h.elim
    | probe => exact h.elim
  intro heq
  rw [heq] at hone
  omega

end Mark

theorem mem_of_expansionsUpTo {ps : List Procedure} {depth : Nat} {active : List String}
    {o : Occurrence} {q : Procedure} (h : q ∈ expansionsUpTo ps depth active o) :
    q ∈ ps ∧ q.inline := by
  induction depth generalizing active o with
  | zero => cases o <;> simp [expansionsUpTo] at h
  | succ depth ih =>
    cases o with
    | call name =>
      unfold expansionsUpTo at h
      split at h
      · next r hr =>
        split at h
        · next hinline =>
          rcases List.mem_cons.mp h with rfl | h
          · exact ⟨List.mem_of_find?_eq_some hr, hinline.1⟩
          · obtain ⟨o, _, ho⟩ := List.mem_flatMap.mp h
            exact ih ho
        · cases h
      · cases h
    | _ => simp [expansionsUpTo] at h

/-- Where names are distinct, all that is found under a name comes from one procedure. -/
theorem exists_of_name {ps : List Procedure} [BEq β] {f : Procedure → List β}
    (hnames : (ps.map (·.name.value)).Nodup) {name : String} {y : β} {n : Nat}
    (h : n < ((ps.filter (·.name.value = name)).flatMap f).count y) :
    ∃ q ∈ ps, q.name.value = name ∧ n < (f q).count y := by
  induction ps with
  | nil => cases h
  | cons q ps ih =>
    obtain ⟨hq, hnames⟩ := List.nodup_cons.mp hnames
    by_cases hname : q.name.value = name
    · have hrest : ps.filter (·.name.value = name) = [] := by
        refine List.filter_eq_nil_iff.mpr fun r hr hrname => hq ?_
        exact List.mem_map.mpr ⟨r, hr, (of_decide_eq_true hrname).trans hname.symm⟩
      rw [List.filter_cons_of_pos (by simpa using hname), hrest] at h
      exact ⟨q, List.mem_cons_self, hname, by simpa using h⟩
    · rw [List.filter_cons_of_neg (by simpa using hname)] at h
      obtain ⟨r, hr, hrname, hcount⟩ := ih hnames h
      exact ⟨r, List.mem_cons_of_mem _ hr, hrname, hcount⟩

namespace Program

/-- No label and no procedure has a name that could be taken for a generated one. -/
structure PlainNames (p : Program) : Prop where
  procedures : ∀ q ∈ p.procedures, IsStemName q.name.value
  labels : ∀ name ∈ p.labels, IsPlain name
  globals : ∀ q ∈ p.procedures, ∀ name ∈ q.globals, IsPlain name
  inners : ∀ q ∈ p.procedures, ∀ name ∈ q.inners, IsPlain name

theorem standing_sublist (p : Program) : p.standing.Sublist p.procedures := List.filter_sublist

theorem mem_expansions {p : Program} {q : Procedure} (h : q ∈ p.expansions) :
    q ∈ p.procedures ∧ q.inline := by
  obtain ⟨r, _, hr⟩ := List.mem_flatMap.mp h
  obtain ⟨o, _, ho⟩ := List.mem_flatMap.mp hr
  exact mem_of_expansionsUpTo ho

variable {p : Program} {c : Counters}

/-- Every label of a program with plain names can be read back. -/
theorem PlainNames.proper (hnames : p.PlainNames) {m : Mark}
    (h : 0 < tally p.procedures p.labels p.standing {} c m) : m.Proper := by
  have hstanding {name : String} (h : name ∈ p.standing.map (·.name.value)) : IsStemName name := by
    obtain ⟨q, hq, rfl⟩ := List.mem_map.mp h
    exact hnames.procedures q (p.standing_sublist.subset hq)
  have howner {name : String} {β : Type} [BEq β] [LawfulBEq β] {f : Procedure → List β} {y : β}
      (h : 0 < ((p.standing.filter (·.name.value = name)).flatMap f).count y) :
      IsStemName name ∧ ∃ q ∈ p.procedures, y ∈ f q := by
    obtain ⟨q, hq, hy⟩ := List.mem_flatMap.mp (List.count_pos_iff.mp h)
    obtain ⟨hq, hname⟩ := List.mem_filter.mp hq
    have hmem := p.standing_sublist.subset hq
    rw [← of_decide_eq_true hname]
    exact ⟨hnames.procedures q hmem, q, hmem, hy⟩
  cases m with
  | global name =>
    have hmem := List.count_pos_iff.mp h
    rcases List.mem_append.mp hmem with hmem | hmem
    · rcases List.mem_append.mp hmem with hmem | hmem
      · rcases List.mem_append.mp hmem with hmem | hmem
        · exact hnames.labels name hmem
        · exact (hstanding hmem).1
      · obtain ⟨q, hq, hmem⟩ := List.mem_flatMap.mp hmem
        exact hnames.globals q (p.standing_sublist.subset hq) name hmem
    · obtain ⟨q, hq, hmem⟩ := List.mem_flatMap.mp hmem
      exact hnames.globals q (mem_expansions hq).1 name hmem
  | inner t name =>
    simp only [tally] at h
    split at h
    · obtain ⟨ht, q, hq, hy⟩ := howner h
      exact ⟨ht, hnames.inners q hq name hy⟩
    · split at h
      · next hleads =>
        obtain ⟨q, hq, _, hcount⟩ := exists_of_innerMost h
        exact ⟨hstanding hleads.1, hnames.inners q hq name (List.count_pos_iff.mp hcount)⟩
      · cases h
  | construct t kind line way =>
    simp only [tally] at h
    split at h
    · exact (howner h).1
    · split at h
      · next hleads => exact hstanding hleads.1
      · cases h
  | probe n stops => trivial

theorem count_globals_split (qs : List Procedure) (f : Procedure → Bool) (name : String) :
    (qs.flatMap Procedure.globals).count name =
      ((qs.filter f).flatMap Procedure.globals).count name +
        ((qs.filter (!f ·)).flatMap Procedure.globals).count name := by
  rw [← List.count_append, ← List.flatMap_append]
  exact ((List.filter_append_perm f qs).flatMap_right _).symm.count_eq name

/-- Bodies that are expanded once have their labels once. -/
theorem count_expansions {name : String}
    (honce : ∀ q ∈ p.expansions, name ∈ q.globals →
      (p.expansions.map (·.name.value)).count q.name.value ≤ 1) :
    (p.expansions.flatMap Procedure.globals).count name ≤
      ((p.procedures.filter (·.inline)).flatMap Procedure.globals).count name := by
  -- Only bodies that have the label matter. No two of them share a name, so they are distinct.
  let those := p.expansions.filter (name ∈ ·.globals)
  have hthose : (p.expansions.flatMap Procedure.globals).count name =
      (those.flatMap Procedure.globals).count name := by
    rw [count_globals_split p.expansions (name ∈ ·.globals), Nat.add_eq_left,
      List.count_eq_zero]
    simp
  have hdistinct : (those.map (·.name.value)).Nodup := by
    refine List.nodup_iff_count_le_one.mpr fun x => ?_
    by_cases hx : x ∈ those.map (·.name.value)
    · obtain ⟨q, hq, rfl⟩ := List.mem_map.mp hx
      obtain ⟨hq, hname⟩ := List.mem_filter.mp hq
      exact Nat.le_trans ((List.filter_sublist.map _).count_le _)
        (honce q hq (of_decide_eq_true hname))
    · rw [List.count_eq_zero.mpr hx]
      exact Nat.zero_le _
  have hsubset : those ⊆ p.procedures.filter (·.inline) := by
    intro q hq
    obtain ⟨hmem, hinline⟩ := mem_expansions (List.mem_filter.mp hq).1
    exact List.mem_filter.mpr ⟨hmem, hinline⟩
  obtain ⟨qs, hperm, hsub⟩ := List.subperm_of_subset (List.Nodup.of_map _ hdistinct) hsubset
  rw [hthose, ← (hperm.flatMap_right Procedure.globals).count_eq]
  exact (hsub.flatMap _).count_le _

/-- A global name that is defined twice stands twice in the source, or in a body that is expanded
twice. -/
theorem globals_twice {name : String}
    (h : 1 < tally p.procedures p.labels p.standing {} c (.global name)) :
    1 < p.globalNames.count name ∨ ∃ q ∈ p.procedures, q.inline ∧ name ∈ q.globals ∧
      1 < (p.expansions.map (·.name.value)).count q.name.value := by
  by_cases honce : ∀ q ∈ p.expansions, name ∈ q.globals →
      (p.expansions.map (·.name.value)).count q.name.value ≤ 1
  · left
    have hexpansions := count_expansions honce
    have hsplit : (p.procedures.flatMap Procedure.globals).count name =
        (p.standing.flatMap Procedure.globals).count name +
          ((p.procedures.filter (·.inline)).flatMap Procedure.globals).count name := by
      rw [count_globals_split p.procedures (·.inline), Nat.add_comm]
      rfl
    change 1 < (p.labels ++ p.standing.map (·.name.value) ++ p.standing.flatMap Procedure.globals ++
      p.expansions.flatMap Procedure.globals).count name at h
    rw [globalNames]
    simp only [List.count_append] at h ⊢
    omega
  · right
    push Not at honce
    obtain ⟨q, hq, hname, htwice⟩ := honce
    obtain ⟨hmem, hinline⟩ := mem_expansions hq
    exact ⟨q, hmem, hinline, hname, htwice⟩

/-- A local label that is defined twice stands twice in one body. -/
theorem inners_twice (hnames : (p.procedures.map (·.name.value)).Nodup) {t : Stem} {name : String}
    (h : 1 < tally p.procedures p.labels p.standing {} c (.inner t name)) :
    ∃ q ∈ p.procedures, 1 < q.inners.count name ∧
      (t = ⟨q.name.value, []⟩ ∨ q.inline ∧ t.expansions ≠ []) := by
  have hstanding := (p.standing_sublist.map (·.name.value)).nodup hnames
  obtain ⟨procedure, expansions⟩ := t
  simp only [tally] at h
  split at h
  · next hnil =>
    obtain ⟨q, hq, hname, htwice⟩ := exists_of_name hstanding h
    refine ⟨q, p.standing_sublist.subset hq, htwice, .inl ?_⟩
    rw [hname, ← hnil]
  · next hinside =>
    split at h
    · obtain ⟨q, hq, hinline, htwice⟩ := exists_of_innerMost h
      exact ⟨q, hq, htwice, .inr ⟨hinline, hinside⟩⟩
    · cases h

/-- A label that is generated is defined once. -/
theorem isWritten_of_twice (hnames : (p.procedures.map (·.name.value)).Nodup)
    (hconstructs : ∀ q ∈ p.procedures, q.constructs.Nodup) {m : Mark}
    (h : 1 < tally p.procedures p.labels p.standing {} c m) : m.IsWritten := by
  cases m with
  | global name => trivial
  | inner t name => trivial
  | construct t kind line way =>
    have hstanding := (p.standing_sublist.map (·.name.value)).nodup hnames
    simp only [tally] at h
    split at h
    · obtain ⟨q, hq, _, htwice⟩ := exists_of_name hstanding h
      have hone := List.nodup_iff_count_le_one.mp (hconstructs q (p.standing_sublist.subset hq))
      exact absurd htwice (Nat.not_lt_of_le (hone _))
    · split at h
      · exact absurd h (Nat.lt_irrefl 1)
      · cases h
  | probe k stops =>
    simp only [tally] at h
    split at h
    · exact absurd h (Nat.lt_irrefl 1)
    · cases h

end Program

/-- A label is refused only if the source has its name twice. It is never a generated one, and a
local label of an inline body does not collide with itself however often the body is expanded. -/
theorem labels_collide_only_in_source {device : Device} {program : Program} {formats : List Format}
    {options : OutputOptions} {l : Location} {n : String} (hnames : program.PlainNames)
    (hconstructs : ∀ q ∈ program.procedures, q.constructs.Nodup)
    (h : compile device program (.ofFormats formats options) =
      .error ⟨l, .semantic (.labelDefined n)⟩) :
    (∀ (s : Scope) kind place rest, n ≠ s.generated kind place ++ rest) ∧
      (∀ k stops, n ≠ Mark.probeName k stops) ∧
      (1 < program.globalNames.count n ∨
        (∃ q ∈ program.procedures, ∃ t name, n = Stem.text t ++ "@" ++ name ∧
          1 < q.inners.count name ∧ (t = ⟨q.name.value, []⟩ ∨ q.inline ∧ t.expansions ≠ [])) ∨
        ∃ q ∈ program.procedures, q.inline ∧ n ∈ q.globals ∧
          1 < (program.expansions.map (·.name.value)).count q.name.value) := by
  have hlabels := program.lower_labels hconstructs device
  obtain ⟨links, htwice⟩ := compile_labelDefined (fun links => (hlabels links).1) h
  obtain ⟨_, c, marks, hmarks, hcount⟩ := hlabels links
  rw [hmarks] at htwice
  by_cases hdistinct : (program.procedures.map (·.name.value)).Nodup
  · simp only [if_pos hdistinct] at hcount
    -- Names can be read back, so a name that is there twice is one label that is there twice.
    have hproper : ∀ m ∈ marks, m.Proper := by
      intro m hm
      exact hnames.proper (Nat.lt_of_lt_of_le (List.count_pos_iff.mpr hm) (hcount m))
    obtain ⟨m, hm, rfl, hmany⟩ := Mark.exists_twice hproper htwice
    have htally := Nat.lt_of_lt_of_le hmany (hcount m)
    have hm := hproper m hm
    have hwritten := Program.isWritten_of_twice hdistinct hconstructs htally
    refine ⟨hwritten.ne_generated hm, ?_, ?_⟩
    · intro k stops heq
      have hprobe : m = .probe k stops :=
        Mark.text_inj hm trivial (heq.trans (Mark.text_probe k stops).symm)
      rw [hprobe] at hwritten
      exact hwritten
    · cases m with
      | global name =>
        rw [Mark.text_global]
        rcases Program.globals_twice htally with hsource | hexpanded
        · exact .inl hsource
        · exact .inr (.inr hexpanded)
      | inner t name =>
        obtain ⟨q, hq, hinner, hstem⟩ := Program.inners_twice hdistinct htally
        exact .inr (.inl ⟨q, hq, t, name, Mark.text_inner t name, hinner, hstem⟩)
      | construct => exact hwritten.elim
      | probe => exact hwritten.elim
  · -- The second procedure of a name is refused before anything is lowered.
    have hnone : marks = [] := by
      refine List.eq_nil_iff_forall_not_mem.mpr fun m hm => ?_
      have hzero := hcount m
      rw [if_neg hdistinct] at hzero
      have := List.count_pos_iff.mpr hm
      omega
    rw [hnone] at htwice
    cases htwice

namespace CollisionSample

open Sample

/-- Has a label of its own, a loop, and a label that is known everywhere. -/
def tick : Procedure where
  name := at1 "tick"
  params := []
  body := [at1 (.label "again" false), at1 (.loop none [onLine 2 .leave]),
    onLine 2 (.label "spot" true)]
  inline := true

def main : Procedure where
  name := at1 "main"
  params := []
  body := [at1 (.call ⟨at1 "tick", []⟩), onLine 2 (.call ⟨onLine 2 "tick", []⟩)]
  inline := false

def program : Program where
  vectors := none
  items := [at1 (.procedure tick), at1 (.procedure main)]

theorem refused : compile sampleDevice program (.ofFormats [.hex] {}) =
    .error (onLine 2 (.semantic (.labelDefined "spot"))) := by
  rfl

end CollisionSample

open CollisionSample Sample in
/-- Two expansions of one body share their global label, but neither the local one nor the loop. -/
theorem labels_collide_only_in_source_spot :
    program.PlainNames ∧ (∀ q ∈ program.procedures, q.constructs.Nodup) ∧
      compile sampleDevice program (.ofFormats [.hex] {}) =
        .error (onLine 2 (.semantic (.labelDefined "spot"))) ∧
      ∃ q ∈ program.procedures, q.inline ∧ "spot" ∈ q.globals ∧
        1 < (program.expansions.map (·.name.value)).count q.name.value := by
  have hnames : program.PlainNames := ⟨by decide, by decide, by decide, by decide⟩
  have hconstructs : ∀ q ∈ program.procedures, q.constructs.Nodup := by decide
  have hinners : ∀ q ∈ program.procedures, q.inners.Nodup := by decide
  have honce : program.globalNames.count "spot" = 1 := by decide
  obtain ⟨_, _, hglobal | ⟨q, hq, _, name, _, htwice, _⟩ | hexpanded⟩ :=
    labels_collide_only_in_source hnames hconstructs refused
  · omega
  · have := List.nodup_iff_count_le_one.mp (hinners q hq) name
    omega
  · exact ⟨hnames, hconstructs, refused, hexpanded⟩

end Avr
