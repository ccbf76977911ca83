import Avr.Proofs.Allocation
import Avr.Proofs.VectorTable

namespace Avr

namespace Item

/-- Has a place in program memory. -/
def isCode : Item → Bool
  | procedure p => !p.inline
  | label _ | data _ => true
  | _ => false

/-- May come after an `org`. -/
def takesOrigin (i : Item) : Bool := i.isCode || i.var?.isSome

end Item

/-- The code of the item starts like this. -/
def Located.Begins (i : Located Item) (es : List Emission) : Prop :=
  match i.value with
  | .procedure p => ¬ p.inline ∧ ∃ rest, es = .label p.name :: rest
  | .label name => es = [.label ⟨i.location, name⟩]
  | .data _ => ∃ row, es = [.data ⟨i.location, row⟩]
  | _ => False

namespace Build

open Trace

variable {b c : Build} {es : List Emission} {u : Unit}

theorem yields_placeCode (h : (placeCode b).Yields es (u, c)) :
    es = b.origin.toList.map (fun o => .org o.value) ∧ (∀ o ∈ b.origin, o.value % 2 = 0) ∧
      c = { b with origin := none } := by
  rw [placeCode, yields_bind_state] at h
  obtain ⟨o, _, _, _, htake, h, rfl⟩ := h
  obtain ⟨rfl, rfl, rfl⟩ := yields_takeOrigin htake
  cases ho : b.origin with
  | none =>
    rw [ho] at h
    obtain ⟨rfl, -, rfl⟩ := yields_pure_state.mp h
    simp
  | some o =>
    rw [ho] at h
    simp only [yields_bind_state, yields_lift, yields_require, yields_emit] at h
    obtain ⟨_, _, _, _, ⟨⟨rfl, heven⟩, rfl⟩, ⟨rfl, rfl⟩, rfl⟩ := h
    simp [heven]

theorem yields_directive {name : Located String} {args : List (Located Expr)}
    (h : (directive name args b).Yields es (u, c)) :
    ∃ arg k, name.value = "org" ∧ args = [arg] ∧ (b.names.constant arg).outcome = .ok k ∧ 0 ≤ k ∧
      b.origin = none ∧ es = [] ∧
      c = { b with origin := some ⟨name.location, k.toNatClampNeg⟩ } := by
  generalize hcode : directive name args = code at h
  unfold directive at hcode
  split at hcode
  · next arg hname =>
    subst hcode
    rw [yields_bind_state] at h
    obtain ⟨_, _, _, _, hreject, h, rfl⟩ := h
    obtain ⟨rfl, ho, rfl⟩ := yields_rejectOrigin hreject
    simp only [yields_bind_state, yields_get_state, yields_lift, yields_require,
      yields_modify_state] at h
    obtain ⟨_, _, _, _, ⟨rfl, rfl, rfl⟩, ⟨k, _, _, _, ⟨hk, rfl⟩,
      ⟨_, _, _, _, ⟨⟨rfl, hpos⟩, rfl⟩, ⟨rfl, rfl⟩, rfl⟩, rfl⟩, rfl⟩ := h
    obtain rfl := hk.eq_nil (by simp)
    exact ⟨arg, k, hname, rfl, hk.2, hpos, ho, rfl, rfl⟩
  · subst hcode
    simp at h

/-- What an item does with the `org` that waits for it, if there is one. -/
inductive OriginStep (i : Located Item) (b c : Build) (es : List Emission) : Prop
  | directs {name : Located String} {arg : Located Expr} {k : Int32}
      (hi : i.value = .directive name [arg]) (hname : name.value = "org")
      (hk : (b.names.constant arg).outcome = .ok k) (hpos : 0 ≤ k) (hb : b.origin = none)
      (hes : es = []) (hc : c.origin = some ⟨name.location, k.toNatClampNeg⟩)
  | code {fs : List Emission} (hi : i.Begins fs) (heven : ∀ o ∈ b.origin, o.value % 2 = 0)
      (hfs : ∀ e ∈ fs, e.isOrg = false)
      (hes : es = b.origin.toList.map (fun o => .org o.value) ++ fs)
  | declares {decl : VarDecl} {v : Variable} (hi : i.value = .var decl)
      (hv : decl.Declares b.names v)
      (haddress : v.address = wrap32 (b.globals.device.ramStart + b.nextStart))
      (hram : ∀ o ∈ b.origin, b.globals.device.HasRam o.value)
      (hvars : c.globals.vars = v :: b.globals.vars) (hes : es = [])
  | other (hi : i.value.takesOrigin = false) (hdirective : ¬ i.value.isDirective)
      (hb : b.origin = none) (hes : ∀ e ∈ es, e.isOrg = false)

/-- Code goes where the `org` says. -/
theorem OriginStep.of_placeCode {i : Located Item} {rest : Unit → Building Unit}
    (h : ((placeCode >>= rest) b).Yields es (u, c))
    (hrest : ∀ fs, (rest () { b with origin := none }).Yields fs (u, c) →
      i.Begins fs ∧ ∀ e ∈ fs, e.isOrg = false) : OriginStep i b c es := by
  rw [yields_bind_state] at h
  obtain ⟨_, _, xs, fs, hplace, h, rfl⟩ := h
  obtain ⟨rfl, heven, rfl⟩ := yields_placeCode hplace
  obtain ⟨hbegins, hfs⟩ := hrest fs h
  exact .code hbegins heven hfs rfl

theorem origin_of_rejectOrigin {rest : Unit → Building Unit}
    (h : ((rejectOrigin >>= rest) b).Yields es (u, c)) : b.origin = none := by
  rw [yields_bind_state] at h
  obtain ⟨_, _, _, _, hreject, -⟩ := h
  exact (yields_rejectOrigin hreject).2.1

theorem yields_procedure {p : Procedure} (h : (procedure p b).Yields es (u, c)) {l : Location} :
    OriginStep ⟨l, .procedure p⟩ b c es := by
  unfold procedure at h
  cases hinline : p.inline with
  | true =>
    rw [hinline, if_pos rfl] at h
    obtain ⟨rfl, ho, -⟩ := yields_rejectOrigin h
    exact .other (by simp [Item.takesOrigin, Item.isCode, Item.var?, hinline])
      (by simp [Item.isDirective]) ho (by simp)
  | false =>
    rw [hinline, if_neg (by simp)] at h
    refine .of_placeCode h fun fs hfs => ?_
    simp only [yields_bind_state, yields_lift, yields_define, yields_emit] at hfs
    obtain ⟨_, _, _, _, ⟨rfl, rfl⟩, ⟨_, _, _, gs, ⟨rfl, rfl⟩, hbody, rfl⟩, rfl⟩ := hfs
    refine ⟨⟨by simp [hinline], _, rfl⟩, ?_⟩
    have hgs : ∀ e ∈ gs, e.isOrg = false := by
      rw [← hbody.1]
      exact emits_counting (fun _ => Emission.InPlace.isOrg_eq)
        (fun g => Scope.inPlace_lowerBody _ _) _
    simpa [Emission.isOrg] using hgs

/-- Without an `org` nothing moves. -/
theorem OriginStep.isOrg_eq {i : Located Item} (h : OriginStep i b c es) (hb : b.origin = none) :
    ∀ e ∈ es, e.isOrg = false := by
  cases h with
  | directs _ _ _ _ _ hes => simp [hes]
  | code _ _ hfs hes =>
    rw [hes, hb]
    exact hfs
  | declares _ _ _ _ _ hes => simp [hes]
  | other _ _ _ hes => exact hes

/-- An item does one thing of these. -/
theorem yields_item {i : Located Item} (h : (item i b).Yields es (u, c)) :
    OriginStep i b c es := by
  obtain ⟨l, i⟩ := i
  cases i with
  | directive name args =>
    obtain ⟨arg, k, hname, rfl, hk, hpos, ho, rfl, rfl⟩ := yields_directive h
    exact .directs rfl hname hk hpos ho rfl rfl
  | procedure p => exact yields_procedure h
  | externalProcedure p =>
    obtain ⟨rfl, ho, -⟩ := yields_rejectOrigin h
    exact .other rfl (by simp [Item.isDirective]) ho (by simp)
  | var decl =>
    obtain rfl := h.eq_nil (emits_declareVariable decl b)
    obtain ⟨hram, v, hv, -, haddress, -, rfl⟩ := yields_declareVariable h
    exact .declares rfl hv haddress hram rfl rfl
  | externalVar decl =>
    refine .other rfl (by simp [Item.isDirective]) (origin_of_rejectOrigin h) ?_
    rw [← h.1]
    exact emits_declareExternal (fun _ => rfl) decl b
  | pin name target =>
    refine .other rfl (by simp [Item.isDirective]) (origin_of_rejectOrigin h) ?_
    rw [← h.1]
    exact emits_declarePin name target b
  | use a =>
    refine .other rfl (by simp [Item.isDirective]) (origin_of_rejectOrigin h) ?_
    rw [← h.1]
    exact emits_declareAlias a b
  | label name =>
    refine .of_placeCode h fun fs hfs => ?_
    obtain ⟨hfs, -⟩ := yields_lift.mp hfs
    obtain rfl := yields_define.mp hfs
    exact ⟨rfl, by simp [Emission.isOrg]⟩
  | data block =>
    refine .of_placeCode h fun fs hfs => ?_
    simp only [yields_bind_state, yields_get_state, yields_lift, yields_emit] at hfs
    obtain ⟨_, _, _, _, ⟨rfl, -, -⟩, ⟨row, _, _, _, ⟨hrow, -⟩, ⟨rfl, -⟩, rfl⟩, rfl⟩ := hfs
    obtain rfl := hrow.eq_nil (by simp)
    exact ⟨⟨row, rfl⟩, by simp [Emission.isOrg]⟩

/-- The item after `pre` is an `org`, and `n` is its address where the program comes to it. -/
def Directs (p : Program) (start : Build) (pre : List (Located Item)) (i : Located Item)
    (before : List Emission) (n : Nat) : Prop :=
  ∃ name arg k b, i.value = .directive name [arg] ∧ name.value = "org" ∧
    (through p pre start).Yields before ((), b) ∧ (b.names.constant arg).outcome = .ok k ∧
    k.toInt = n

end Build

namespace Allocation

variable {is : List Item} {i : Item} {a b : Allocation}

/-- An `org` waits only right after a directive. -/
theorem Run.origin_eq (h : Run is a b) (ha : is = [] → a.origin = none)
    (hlast : ∀ i ∈ is.getLast?, ¬ i.isDirective) : b.origin = none := by
  induction h with
  | nil => exact ha rfl
  | @cons i is a b c hstep _ ih =>
    apply ih
    · rintro rfl
      exact hstep.origin_eq (hlast i rfl)
    · intro j hj
      apply hlast j
      rw [List.getLast?_cons, Option.mem_def.mp hj]
      rfl

theorem Step.used_eq (h : Step i a b) (hi : i.var? = none) : b.used = a.used := by
  cases h with
  | declares => cases hi
  | directs => rfl
  | keeps => rfl

/-- The first free byte comes right after the variable that was declared last. -/
def Flush (a : Allocation) : Prop :=
  wrap32 (a.device.ramStart + a.used) =
    wrap32 (a.vars.head?.elim a.device.ramStart Variable.stop)

theorem Step.flush (h : Step i a b) (ha : a.Flush) : b.Flush := by
  cases h with
  | @declares _ _ v start haddress _ _ _ =>
    change wrap32 (a.device.ramStart + wrap32 (start + v.size)) = wrap32 v.stop
    rw [Variable.stop, haddress, Variable.size_eq, wrap32_wrap32_add, wrap32_add_wrap32,
      ← Nat.add_assoc, wrap32_add_wrap32]
  | directs => exact ha
  | keeps => exact ha

theorem Run.flush (h : Run is a b) (ha : a.Flush) : b.Flush := by
  induction h with
  | nil => exact ha
  | cons hstep _ ih => exact ih (hstep.flush ha)

end Allocation

namespace Layout

/-- The emissions lie from this address on and come first in their block, in the layout and in every
listing of it. -/
structure StartsAt (l : Layout) (n : Nat) (es : List Emission) : Prop where
  block : ∃ b ∈ l.blocks, b.origin = n ∧ ∃ rest, b.entries.toList = Emission.entries es ++ rest
  labels : ∀ p ∈ Entry.labelsFrom n (Emission.entries es), l.labels.lookup p.1 = some p.2
  listing : ∀ linker listing, l.resolve linker = .ok listing →
    ∃ s ∈ listing.sections, s.origin = n ∧
      ∃ xs rest, l.Places linker n es xs ∧ s.lines = xs ++ rest

theorem last_org (l : Layout) (n : Nat) :
    (l.org n).last.origin = n ∧ (l.org n).last.entries = #[] := by
  unfold org last
  cases l.current with
  | none => exact ⟨rfl, rfl⟩
  | some b =>
    by_cases hb : b.entries.isEmpty
    · simp only [hb, if_true]
      exact ⟨rfl, Array.isEmpty_iff.mp hb⟩
    · simp only [hb]
      exact ⟨rfl, rfl⟩

theorem startsAt_org {l : Layout} {n : Nat} {before es after : List Emission}
    (h : applyAll {} (before ++ (.org n :: es) ++ after) = .ok l)
    (hes : ∀ e ∈ es, e.isOrg = false) (hne : Emission.entries es ≠ []) : l.StartsAt n es := by
  have hparts : before ++ (.org n :: es) ++ after = (before ++ [.org n]) ++ (es ++ after) := by simp
  rw [hparts] at h
  obtain ⟨j, hj, hrest⟩ := applyAll_append.mp h
  have hlast : j.last.origin = n ∧ j.last.entries = #[] := by
    obtain ⟨k, -, hk⟩ := applyAll_append.mp hj
    obtain ⟨_, horg, hnil⟩ := applyAll_cons.mp hk
    cases hnil
    cases horg
    exact k.last_org n
  obtain ⟨rfl, hempty⟩ := hlast
  obtain ⟨b, hb, ho, ⟨entries, hentries⟩, hlabels⟩ := block_after hj hrest hes hne
  rw [hempty] at hentries hlabels
  refine ⟨⟨b, hb, ho, entries, by simpa using hentries⟩, by simpa [Entry.sizes] using hlabels, ?_⟩
  intro linker listing hr
  obtain ⟨s, hs, pre, xs, post, hso, hpre, hplaces, hlines⟩ := places_after hj hrest hes hne hr
  rw [hempty] at hpre hplaces
  cases hpre
  exact ⟨s, hs, hso, xs, post, by simpa [Entry.sizes] using hplaces, by simpa using hlines⟩

end Layout

/-- Each directive is followed by an item that has a place. -/
def Program.OrgsFollowed (p : Program) : Prop :=
  ∀ pre i post, p.items = pre ++ i :: post → i.value.isDirective →
    ∃ j rest, post = j :: rest ∧ j.value.takesOrigin

theorem Located.Begins.isCode {i : Located Item} {es : List Emission} (h : i.Begins es) :
    i.value.isCode := by
  obtain ⟨l, i⟩ := i
  cases i with
  | procedure p => simpa [Item.isCode] using h.1
  | label | data => rfl
  | _ => exact h.elim

theorem Located.Begins.entries_ne_nil {i : Located Item} {es : List Emission} (h : i.Begins es) :
    Emission.entries es ≠ [] := by
  obtain ⟨l, i⟩ := i
  cases i with
  | procedure p =>
    obtain ⟨-, rest, rfl⟩ := h
    simp [Emission.entries, Emission.entry?]
  | label name =>
    obtain rfl := h
    simp [Emission.entries, Emission.entry?]
  | data block =>
    obtain ⟨row, rfl⟩ := h
    simp [Emission.entries, Emission.entry?]
  | _ => exact h.elim

/-- An item that an `org` sends to `n`, where these names are known. -/
inductive SentTo (device : Device) (vars : List Variable) (names : Names) (n : Nat)
    (j : Located Item) (own : List Emission) : Prop
  | code {es : List Emission} (begins : j.Begins es) (even : n % 2 = 0)
      (onward : ∀ e ∈ es, e.isOrg = false) (emits : own = .org n :: es)
  | cell {decl : VarDecl} {v : Variable} (item : j.value = .var decl)
      (declares : decl.Declares names v) (mem : v ∈ vars) (address : v.address = n)
      (ram : device.HasRam n) (emits : own = [])

section

variable {device : Device} {vars : List Variable} {names : Names} {n : Nat} {j : Located Item}
  {own : List Emission}

theorem SentTo.takesOrigin (h : SentTo device vars names n j own) : j.value.takesOrigin := by
  cases h with
  | code begins => simp [Item.takesOrigin, begins.isCode]
  | cell item => simp [Item.takesOrigin, item, Item.var?]

theorem SentTo.mono {others : List Variable} (h : SentTo device vars names n j own)
    (hsub : vars ⊆ others) : SentTo device others names n j own := by
  cases h with
  | code begins even onward emits => exact .code begins even onward emits
  | cell item declares mem address ram emits =>
    exact .cell item declares (hsub mem) address ram emits

theorem SentTo.startsAt {before after es : List Emission} {l : Layout}
    (h : SentTo device vars names n j own)
    (hl : Layout.applyAll {} (before ++ own ++ after) = .ok l) (hown : own = .org n :: es) :
    l.StartsAt n es := by
  subst hown
  cases h with
  | cell _ _ _ _ _ emits => cases emits
  | code begins _ onward emits =>
    cases emits
    exact Layout.startsAt_org hl onward begins.entries_ne_nil

end

theorem Item.not_isCode {i : Item} (h : i.isDirective) : i.isCode = false := by
  cases i with
  | directive => rfl
  | _ => cases h

namespace Build

open Trace

variable {p : Program} {start f : Build} {pre post : List (Located Item)} {i : Located Item}
  {es : List Emission}

theorem Reaches.run {before own : List Emission} {b c : Build}
    (h : Reaches p start pre i before own b c) :
    Allocation.Run (pre.map (·.value)) start.allocation b.allocation ∧
      Allocation.Step i.value b.allocation c.allocation :=
  ⟨after_through p pre start _ _ _ h.before, after_item i _ _ _ h.own⟩

theorem Reaches.device_eq {before own : List Emission} {b c : Build}
    (h : Reaches p start pre i before own b c) : b.globals.device = start.globals.device :=
  h.run.1.device_eq

theorem Reaches.snoc {before own xs : List Emission} {b c d : Build} {j : Located Item}
    (h : Reaches p start pre i before own b c) (hj : (item j c).Yields xs ((), d)) :
    Reaches p start (pre ++ [i]) j (before ++ own) xs c d := by
  refine ⟨yields_through_append.mpr ⟨b, before, own, h.before, ?_, rfl⟩, hj⟩
  exact yields_forM_cons.mpr ⟨c, own, [], h.own, yields_forM_nil.mpr ⟨rfl, rfl⟩, by simp⟩

/-- Nothing moves before the first item. -/
theorem isOrg_opening {b : Build} (h : (opening p start).Yields es ((), b)) :
    ∀ e ∈ es, e.isOrg = false := by
  have hopening : EmitsFrom (fun e => e.isOrg = false) (opening p) := by
    refine emitsFrom_bind (emits_declareProcedures (fun _ => rfl) _) fun _ => ?_
    cases p.vectors with
    | some table =>
      exact emits_counting (fun _ => Emission.InPlace.isOrg_eq) fun g => g.inPlace_vectors table
    | none => exact emitsFrom_pure _
  rw [← h.1]
  exact hopening start

/-- The item after a directive goes where the directive says. -/
theorem sent_of_directive (h : (program p start).Yields es ((), f))
    (hp : p.items = pre ++ i :: post) (hi : i.value.isDirective) :
    ∃ n j rest before own after b c, Directs p start pre i before n ∧ post = j :: rest ∧
      Reaches p start (pre ++ [i]) j before own b c ∧ es = before ++ own ++ after ∧
      SentTo start.globals.device f.globals.vars b.names n j own := by
  obtain ⟨before, own, after, b, c, hreaches, hafter, rfl⟩ := exists_reaches h hp
  have hf := (yields_program h).2
  cases yields_item hreaches.own with
  | code hbegins =>
    have hcode := hbegins.isCode
    rw [Item.not_isCode hi] at hcode
    cases hcode
  | declares hvalue => simp [hvalue, Item.isDirective] at hi
  | other _ hdirective => exact absurd hi hdirective
  | @directs name arg k hvalue hname hk hpos _ hown hc =>
    obtain rfl := hown
    cases post with
    | nil =>
      obtain ⟨-, rfl⟩ := yields_forM_nil.mp hafter
      rw [hc] at hf
      cases hf
    | cons j rest =>
      obtain ⟨e, own, after, hj, hrest, rfl⟩ := yields_forM_cons.mp hafter
      have hn : k.toInt = k.toNatClampNeg :=
        (Int.toNat_of_nonneg (Int32.le_iff_toInt_le.mp hpos)).symm
      have hnext := hreaches.snoc hj
      rw [List.append_nil] at hnext
      refine ⟨k.toNatClampNeg, j, rest, before, own, after, c, e,
        ⟨name, arg, k, b, hvalue, hname, hreaches.before, hk, hn⟩, rfl, hnext, by simp, ?_⟩
      cases yields_item hj with
      | directs _ _ _ _ ho =>
        rw [hc] at ho
        cases ho
      | other _ _ ho =>
        rw [hc] at ho
        cases ho
      | code hbegins heven hfs hes =>
        refine .code hbegins (heven _ hc) hfs ?_
        rw [hes, hc]
        rfl
      | @declares decl v hvalue hv haddress hram hvs hes =>
        obtain ⟨vs, hlater, -⟩ := vars_after_items hrest
        rw [wrap32_nextStart hc (hram _ hc)] at haddress
        rw [hnext.device_eq] at hram
        refine .cell hvalue hv ?_ haddress (hram _ hc) hes
        rw [hlater, hvs]
        simp

theorem orgsFollowed (h : (program p start).Yields es ((), f)) : p.OrgsFollowed := by
  intro pre i post hp hi
  obtain ⟨_, j, rest, _, _, _, _, _, -, hpost, -, -, hj⟩ := sent_of_directive h hp hi
  exact ⟨j, rest, hpost, hj.takesOrigin⟩

/-- Any other item stays where it is: code goes on from what is there, and variables come after one
another. -/
theorem onward_of_reaches {before own : List Emission} {b c : Build}
    (h : Reaches p start pre i before own b c) (hstart : start.allocation.Flush)
    (horigin : start.origin = none) (hlast : ∀ j ∈ pre.getLast?, ¬ j.value.isDirective) :
    (∀ e ∈ own, e.isOrg = false) ∧
      (∀ decl, i.value = .var decl → ∃ v, decl.Declares b.names v ∧
        c.globals.vars = v :: b.globals.vars ∧ v.address =
          wrap32 (b.globals.vars.head?.elim start.globals.device.ramStart Variable.stop)) ∧
      (i.value.var? = none → c.ramUsed = b.ramUsed) := by
  obtain ⟨hrun, hstep⟩ := h.run
  have ho : b.origin = none := by
    refine hrun.origin_eq (fun _ => horigin) fun j hj => ?_
    rw [List.getLast?_map] at hj
    obtain ⟨x, hx, rfl⟩ := Option.map_eq_some_iff.mp hj
    exact hlast x hx
  refine ⟨(yields_item h.own).isOrg_eq ho, ?_, hstep.used_eq⟩
  intro decl hdecl
  obtain ⟨l, i⟩ := i
  obtain rfl : i = .var decl := hdecl
  obtain ⟨-, v, hv, -, haddress, -, rfl⟩ := yields_declareVariable h.own
  have hflush : b.allocation.Flush := hrun.flush hstart
  refine ⟨v, hv, rfl, ?_⟩
  rw [haddress, nextStart, ho, ← h.device_eq]
  exact hflush

end Build

theorem Program.mem_vars {program : Program} {device : Device} {links : Bool} {es : List Emission}
    {f : Build} (h : (Build.program program { globals := { device }, links }).Yields es ((), f))
    {v : Variable} : v ∈ program.vars device links ↔ v ∈ f.globals.vars := by
  rw [Program.vars_eq h, List.mem_reverse]

/-- No `org` is lost, and none moves anything but the item after it. A program that compiles has an
item with a place after each of its directives, and that item goes there: code from an even address
on, and a variable in RAM. Any other item goes on from what is there already. -/
theorem compile_origins (device : Device) (program : Program) (formats : List Format)
    (options : OutputOptions) :
    let links := (Outputs.ofFormats formats options).linksExternals
    let start : Build := { globals := { device }, links }
    let emitted := (program.lower device links).emitted
    let vars := program.vars device links
    (¬ program.OrgsFollowed →
      ∃ e, compile device program (.ofFormats formats options) = .error e) ∧
    ∀ c, compile device program (.ofFormats formats options) = .ok c →
      (∀ pre i post, program.items = pre ++ i :: post → i.value.isDirective →
        ∃ n j rest before own after b d, Build.Directs program start pre i before n ∧
          post = j :: rest ∧ Build.Reaches program start (pre ++ [i]) j before own b d ∧
          emitted = before ++ own ++ after ∧ SentTo device vars b.names n j own ∧
          (formats ≠ [] → ∀ es, own = .org n :: es → c.outputs.layout.StartsAt n es)) ∧
      (∀ pre j post, program.items = pre ++ j :: post →
        (∀ i ∈ pre.getLast?, ¬ i.value.isDirective) →
        ∃ before own after b d, Build.Reaches program start pre j before own b d ∧
          emitted = before ++ own ++ after ∧ (∀ e ∈ own, e.isOrg = false) ∧
          (∀ decl, j.value = .var decl → ∃ v ∈ vars, decl.Declares b.names v ∧
            d.globals.vars = v :: b.globals.vars ∧
            v.address = wrap32 (b.globals.vars.head?.elim device.ramStart Variable.stop)) ∧
          (j.value.var? = none → d.ramUsed = b.ramUsed)) ∧
      ∀ before b, (Build.opening program start).Yields before ((), b) →
        ∀ e ∈ before, e.isOrg = false := by
  intro links start emitted vars
  refine ⟨?_, ?_⟩
  · intro hlost
    cases h : compile device program (.ofFormats formats options) with
    | error e => exact ⟨e, rfl⟩
    | ok c =>
      obtain ⟨f, hf⟩ := compile_yields h
      exact absurd (Build.orgsFollowed hf) hlost
  · intro c h
    obtain ⟨f, hf⟩ := compile_yields h
    have hsub : f.globals.vars ⊆ vars := fun v hv => (Program.mem_vars hf).mpr hv
    refine ⟨?_, ?_, fun before b hb => Build.isOrg_opening hb⟩
    · intro pre i post hp hi
      obtain ⟨n, j, rest, before, own, after, b, d, hdirects, hpost, hreaches, hes, hj⟩ :=
        Build.sent_of_directive hf hp hi
      refine ⟨n, j, rest, before, own, after, b, d, hdirects, hpost, hreaches, hes, hj.mono hsub,
        fun hformats es hown => ?_⟩
      have happly := compile_applyAll hformats h
      rw [hes] at happly
      exact hj.startsAt happly hown
    · intro pre j post hp hlast
      obtain ⟨before, own, after, b, d, hreaches, hafter, hes⟩ := Build.exists_reaches hf hp
      obtain ⟨hown, hdecl, hused⟩ := Build.onward_of_reaches hreaches rfl rfl hlast
      refine ⟨before, own, after, b, d, hreaches, hes, hown, fun decl hj => ?_, hused⟩
      obtain ⟨v, hv, hd, haddress⟩ := hdecl decl hj
      obtain ⟨vs, hlater, -⟩ := Build.vars_after_items hafter
      refine ⟨v, hsub ?_, hv, hd, haddress⟩
      rw [hlater, hd]
      simp

namespace OriginSample

open Sample

def org (k : Int32) : Located Item := at1 (.directive (at1 "org") [at1 (.number k)])

/-- A label and a variable, each at an address of its own. -/
def program : Program where
  vectors := none
  items := [org 128, at1 (.label "boot"), org 200, at1 (.var ⟨at1 "count", .byte, none⟩)]

theorem compiles : ∃ c, compile sampleDevice program (.ofFormats [.hex] {}) = .ok c :=
  ⟨_, rfl⟩

end OriginSample

open OriginSample in
/-- Both are where they were sent. -/
theorem compile_origins_label_and_cell :
    ∃ c, compile sampleDevice OriginSample.program (.ofFormats [.hex] {}) = .ok c ∧
      c.outputs.layout.StartsAt 128 [.label (Sample.at1 "boot")] ∧
      ∃ v ∈ OriginSample.program.vars sampleDevice false, v.address = 200 := by
  obtain ⟨c, hc⟩ := compiles
  obtain ⟨-, hcompiled⟩ := compile_origins sampleDevice OriginSample.program [.hex] {}
  obtain ⟨hdirectives, -, -⟩ := hcompiled c hc
  refine ⟨c, hc, ?_, ?_⟩
  · obtain ⟨n, j, _, _, own, _, _, _, hdirects, hpost, -, -, hsent, hstarts⟩ :=
      hdirectives [] (org 128) _ rfl rfl
    obtain ⟨_, _, k, _, hvalue, -, -, hk, hn⟩ := hdirects
    cases hvalue
    cases hk
    obtain rfl : n = 128 := (Int.ofNat.inj hn).symm
    cases hpost
    cases hsent with
    | cell item => cases item
    | code begins _ _ emits => exact begins ▸ hstarts (by simp) _ emits
  · obtain ⟨n, j, _, _, own, _, _, _, hdirects, hpost, -, -, hsent, -⟩ :=
      hdirectives [org 128, Sample.at1 (.label "boot")] (org 200) _ rfl rfl
    obtain ⟨_, _, k, _, hvalue, -, -, hk, hn⟩ := hdirects
    cases hvalue
    cases hk
    obtain rfl : n = 200 := (Int.ofNat.inj hn).symm
    cases hpost
    cases hsent with
    | code begins => cases begins
    | cell _ _ mem address => exact ⟨_, mem, address⟩

end Avr
