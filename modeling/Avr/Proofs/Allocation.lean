import Mathlib.Data.List.Chain
import Avr.Proofs.LabelTally
import Avr.Proofs.Placement

namespace Avr

namespace Trace

/-- Whatever the computation comes out with, it satisfies `P`. -/
def After {σ α : Type} (code : StateT σ Trace α) (p : σ) (P : α → σ → Prop) : Prop :=
  ∀ es a q, (code p).Yields es (a, q) → P a q

section

variable {σ : Type} {p : σ}

@[simp] theorem after_pure {a : α} {P : α → σ → Prop} :
    After (pure a : StateT σ Trace α) p P ↔ P a p := by
  simp [After]

@[simp] theorem after_get {P : σ → σ → Prop} :
    After (MonadState.get : StateT σ Trace σ) p P ↔ P p p := by
  simp [After]

@[simp] theorem after_set {r : σ} {P : PUnit → σ → Prop} :
    After (set r : StateT σ Trace PUnit) p P ↔ P ⟨⟩ r := by
  simp only [After, yields_set_state]
  exact ⟨fun h => h [] ⟨⟩ r ⟨rfl, rfl⟩, fun h _ _ _ hq => hq.2 ▸ h⟩

@[simp] theorem after_modify {f : σ → σ} {P : PUnit → σ → Prop} :
    After (modify f : StateT σ Trace PUnit) p P ↔ P ⟨⟩ (f p) := by
  simp only [After, yields_modify_state]
  exact ⟨fun h => h [] ⟨⟩ (f p) ⟨rfl, rfl⟩, fun h _ _ _ hq => hq.2 ▸ h⟩

@[simp] theorem after_lift {x : Trace α} {P : α → σ → Prop} :
    After (liftM x : StateT σ Trace α) p P ↔ ∀ a, x.outcome = .ok a → P a p := by
  constructor
  · intro h a ha
    exact h x.emitted a p (yields_lift.mpr ⟨⟨rfl, ha⟩, rfl⟩)
  · intro h es a q hy
    obtain ⟨hx, rfl⟩ := yields_lift.mp hy
    exact h a hx.2

@[simp] theorem after_bind {code : StateT σ Trace α} {f : α → StateT σ Trace β}
    {P : β → σ → Prop} :
    After (code >>= f) p P ↔ After code p fun a q => After (f a) q P := by
  constructor
  · intro h xs a q hx ys b r hy
    exact h (xs ++ ys) b r (yields_bind_state.mpr ⟨a, q, xs, ys, hx, hy, rfl⟩)
  · intro h es b r hy
    obtain ⟨a, q, xs, ys, hx, hrest, rfl⟩ := yields_bind_state.mp hy
    exact h xs a q hx ys b r hrest

@[simp] theorem outcome_require {l : Location} {e : SemanticError} {c : Prop} [Decidable c]
    {u : Unit} : (require l e c).outcome = .ok u ↔ c := by
  unfold require
  split
  · next hc => simp [hc, pure]
  · next hc => simp [hc, fail, throw]

@[simp] theorem outcome_fail {l : Location} {e : SemanticError} {a : α} :
    (fail l e : Trace α).outcome = .ok a ↔ False := by
  simp [fail, throw]

theorem After.imp {code : StateT σ Trace α} {P Q : α → σ → Prop} (h : After code p P)
    (hpq : ∀ a q, P a q → Q a q) : After code p Q :=
  fun es a q hy => hpq a q (h es a q hy)

end

end Trace

namespace Variable

/-- The number of bytes of the variable, however large. -/
def extent (v : Variable) : Nat := v.type.size * v.length.getD 1

/-- The first address after the variable. -/
def stop (v : Variable) : Nat := v.address + v.extent

theorem size_eq (v : Variable) : v.size = wrap32 v.extent := rfl

theorem size_of_stop_lt {v : Variable} (h : v.stop < UInt32.size) : v.size = v.extent :=
  wrap32_of_lt (Nat.lt_of_le_of_lt (Nat.le_add_left ..) h)

/-- The address is that of a byte of the variable. -/
def Holds (v : Variable) (a : Nat) : Prop := v.address ≤ a ∧ a < v.stop

theorem holds_add {v : Variable} {k : Nat} (hv : v.stop < UInt32.size) (hk : k < v.size) :
    wrap32 (v.address + k) = v.address + k ∧ v.Holds (v.address + k) := by
  rw [size_of_stop_lt hv] at hk
  have hlt : v.address + k < v.stop := Nat.add_lt_add_left hk _
  exact ⟨wrap32_of_lt (hlt.trans hv), Nat.le_add_right .., hlt⟩

/-- One variable ends before the other starts. -/
def Apart (v w : Variable) : Prop := v.stop ≤ w.address ∨ w.stop ≤ v.address

/-- The variable lies in RAM with all of its bytes. -/
def Within (v : Variable) (d : Device) : Prop :=
  d.ramStart ≤ v.address ∧ v.stop ≤ d.ramStart + d.ramSize

theorem Apart.symm {v w : Variable} (h : v.Apart w) : w.Apart v := h.elim .inr .inl

theorem Apart.not_holds {v w : Variable} (h : v.Apart w) {a : Nat} (ha : v.Holds a) :
    ¬ w.Holds a := by
  unfold Apart Holds at *
  omega

end Variable

namespace VarDecl

/-- How many cells the declaration asks for where these names are known: as many as its constant
says, which is positive, or no number at all. -/
def Counts (n : Names) (decl : VarDecl) (length : Option Nat) : Prop :=
  match decl.length with
  | none => length = none
  | some e => ∃ (k : Int32) (count : Nat), (n.constant e).outcome = .ok k ∧ k.toInt = count ∧
      0 < count ∧ length = some count

/-- The variable is declared like this. -/
structure Declares (n : Names) (decl : VarDecl) (v : Variable) : Prop where
  name : v.name = decl.name.value
  type : v.type = decl.type
  length : decl.Counts n v.length

end VarDecl

/-- The address is one of RAM. -/
def Device.HasRam (d : Device) (a : Nat) : Prop :=
  ∃ last, d.ramEnd? = some last ∧ d.ramStart ≤ a ∧ a ≤ last

theorem Device.HasRam.bounds {d : Device} {a : Nat} (h : d.HasRam a) :
    d.ramStart ≤ a ∧ a < d.ramStart + d.ramSize ∧ a < UInt32.size := by
  obtain ⟨last, hlast, hstart, hle⟩ := h
  simp only [ramEnd?, Option.ite_none_right_eq_some, Option.some.injEq] at hlast
  omega

namespace Item

def var? : Item → Option VarDecl
  | .var decl => some decl
  | _ => none

def isDirective : Item → Bool
  | .directive .. => true
  | _ => false

end Item

/-- What decides where the next variable goes. -/
structure Allocation where
  device : Device
  /-- The last one first. -/
  vars : List Variable
  used : Nat
  origin : Option (Located Nat)

namespace Allocation

def empty (d : Device) : Allocation := ⟨d, [], 0, none⟩

/-- What one item does to the allocation. A variable goes to the first free byte, or where an `org`
sends it. -/
inductive Step : Item → Allocation → Allocation → Prop
  | declares {a : Allocation} {decl : VarDecl} {v : Variable} {start : Nat}
      (haddress : v.address = wrap32 (a.device.ramStart + start))
      (hstart : a.origin = none ∧ start = a.used ∨ a.origin ≠ none ∧ start < a.device.ramSize)
      (hfits : wrap32 (start + v.size) ≤ a.device.ramSize)
      (hfresh : v.name ∉ a.vars.map (·.name)) :
      Step (.var decl) a
        { a with vars := v :: a.vars, used := wrap32 (start + v.size), origin := none }
  | directs {a : Allocation} {name : Located String} {args : List (Located Expr)}
      {origin : Option (Located Nat)} : Step (.directive name args) a { a with origin }
  | keeps {a : Allocation} {item : Item} (hvar : item.var? = none)
      (hdirective : ¬ item.isDirective) : Step item a { a with origin := none }

end Allocation

namespace Build

open Trace

def allocation (b : Build) : Allocation :=
  ⟨b.globals.device, b.globals.vars, b.ramUsed, b.origin⟩

variable {b c : Build} {es : List Emission} {u : Unit}

theorem yields_takeOrigin {o : Option (Located Nat)} (h : (takeOrigin b).Yields es (o, c)) :
    es = [] ∧ b.origin = o ∧ c = { b with origin := none } := by
  simp only [takeOrigin, yields_bind_state, yields_get_state, yields_set_state,
    yields_pure_state] at h
  obtain ⟨_, _, _, _, ⟨rfl, rfl, rfl⟩, ⟨_, _, _, _, ⟨rfl, rfl⟩, ⟨rfl, rfl, rfl⟩, rfl⟩, rfl⟩ := h
  exact ⟨rfl, rfl, rfl⟩

theorem yields_rejectOrigin (h : (rejectOrigin b).Yields es (u, c)) :
    es = [] ∧ b.origin = none ∧ c = b := by
  rw [rejectOrigin, yields_bind_state] at h
  obtain ⟨o, _, _, _, htake, h, rfl⟩ := h
  obtain ⟨rfl, ho, rfl⟩ := yields_takeOrigin htake
  cases o with
  | some o => simp at h
  | none =>
    obtain ⟨rfl, -, rfl⟩ := yields_pure_state.mp h
    refine ⟨rfl, ho, ?_⟩
    rw [← ho]

theorem after_takeOrigin {P : Option (Located Nat) → Build → Prop} :
    After takeOrigin b P ↔ P b.origin { b with origin := none } := by
  simp only [takeOrigin, after_bind, after_get, after_set, after_pure]

theorem after_rejectOrigin {P : Unit → Build → Prop} (h : P () { b with origin := none }) :
    After rejectOrigin b P := by
  rw [rejectOrigin, after_bind, after_takeOrigin]
  cases b.origin with
  | none => simpa using h
  | some o => simp

theorem after_placeCode {P : Unit → Build → Prop} (h : P () { b with origin := none }) :
    After placeCode b P := by
  rw [placeCode, after_bind, after_takeOrigin]
  cases b.origin with
  | none => simpa using h
  | some o => simp [h]

theorem after_counting {part : Globals → Lowering Unit} {P : Unit → Build → Prop}
    (h : ∀ counters, P () { b with counters }) : After (counting part) b P := by
  simp [counting, h]

theorem counts_arrayLength {n : Names} {decl : VarDecl} {length : Option Nat}
    (h : (arrayLength n decl.length).outcome = .ok length) : decl.Counts n length := by
  unfold VarDecl.Counts
  cases hlength : decl.length with
  | none =>
    rw [hlength] at h
    cases h
    rfl
  | some e =>
    rw [hlength] at h
    have hy : (arrayLength n (some e)).Yields _ length := ⟨rfl, h⟩
    simp only [arrayLength, yields_bind, yields_require, yields_pure] at hy
    obtain ⟨k, _, _, hk, ⟨_, _, _, ⟨-, hpos⟩, ⟨-, rfl⟩, -⟩, -⟩ := hy
    have hpos : 0 < k.toInt := Int32.lt_iff_toInt_lt.mp hpos
    have hcount : k.toInt = k.toNatClampNeg := (Int.toNat_of_nonneg hpos.le).symm
    exact ⟨k, k.toNatClampNeg, hk.2, hcount, by omega, rfl⟩

theorem not_mem_names {g : Globals} {name : String} (h : ¬ g.declaresVariable name) :
    name ∉ g.vars.map (·.name) := by
  intro hmem
  obtain ⟨v, hv, rfl⟩ := List.mem_map.mp hmem
  have hfound : (g.var? v.name).isSome := List.find?_isSome.mpr ⟨v, hv, by simp⟩
  exact h (by simp [Globals.declaresVariable, hfound])

/-- Offset of the next variable from the start of RAM. -/
def nextStart (b : Build) : Nat :=
  b.origin.elim b.ramUsed fun o => o.value - b.globals.device.ramStart

theorem yields_placeVariable (h : (placeVariable b).Yields es (u, c)) :
    (∀ o ∈ b.origin, b.globals.device.HasRam o.value) ∧
      c = { b with origin := none, ramUsed := b.nextStart } := by
  rw [placeVariable, yields_bind_state] at h
  obtain ⟨o, _, _, _, htake, h, rfl⟩ := h
  obtain ⟨rfl, rfl, rfl⟩ := yields_takeOrigin htake
  unfold nextStart
  cases ho : b.origin with
  | none =>
    rw [ho] at h
    obtain ⟨rfl, -, rfl⟩ := yields_pure_state.mp h
    simp
  | some o =>
    rw [ho] at h
    simp only [yields_bind_state, yields_get_state, yields_lift, yields_get, yields_require,
      yields_modify_state] at h
    obtain ⟨_, _, _, _, ⟨rfl, rfl, rfl⟩, ⟨last, _, _, _, ⟨⟨rfl, hlast⟩, rfl⟩,
      ⟨_, _, _, _, ⟨⟨rfl, hrange⟩, rfl⟩, ⟨rfl, rfl⟩, rfl⟩, rfl⟩, rfl⟩ := h
    refine ⟨?_, rfl⟩
    rintro _ ⟨⟩
    exact ⟨last, hlast, hrange⟩

/-- A declaration adds its variable at the next place, if there is room for it. -/
theorem yields_declareVariable {decl : VarDecl} (h : (declareVariable decl b).Yields es (u, c)) :
    (∀ o ∈ b.origin, b.globals.device.HasRam o.value) ∧
      ∃ v, decl.Declares b.names v ∧ v.name ∉ b.globals.vars.map (·.name) ∧
        v.address = wrap32 (b.globals.device.ramStart + b.nextStart) ∧
        wrap32 (b.nextStart + v.size) ≤ b.globals.device.ramSize ∧
        c = { b with
          origin := none
          ramUsed := wrap32 (b.nextStart + v.size)
          globals := { b.globals with vars := v :: b.globals.vars } } := by
  rw [declareVariable, yields_bind_state] at h
  obtain ⟨_, _, _, _, hplace, h, rfl⟩ := h
  obtain ⟨hram, rfl⟩ := yields_placeVariable hplace
  simp only [yields_bind_state, yields_get_state, yields_lift, yields_require,
    yields_set_state] at h
  obtain ⟨_, _, _, _, ⟨-, rfl, rfl⟩, ⟨_, _, _, _, ⟨⟨-, hfresh⟩, rfl⟩, ⟨length, _, _, _,
    ⟨hlength, rfl⟩, ⟨_, _, _, _, ⟨⟨-, hfits⟩, rfl⟩, ⟨-, rfl⟩, -⟩, -⟩, -⟩, -⟩ := h
  exact ⟨hram, ⟨decl.name.value, _, decl.type, length⟩, ⟨rfl, rfl, counts_arrayLength hlength.2⟩,
    not_mem_names hfresh, rfl, hfits, rfl⟩

/-- An `org` before a variable gives its address. -/
theorem wrap32_nextStart {o : Located Nat} (ho : b.origin = some o)
    (hram : b.globals.device.HasRam o.value) :
    wrap32 (b.globals.device.ramStart + b.nextStart) = o.value := by
  obtain ⟨hstart, -, hword⟩ := hram.bounds
  rw [nextStart, ho]
  change wrap32 (b.globals.device.ramStart + (o.value - b.globals.device.ramStart)) = o.value
  rw [Nat.add_sub_cancel' hstart, wrap32_of_lt hword]

theorem after_declareVariable (decl : VarDecl) :
    After (declareVariable decl) b fun _ c =>
      Allocation.Step (.var decl) b.allocation c.allocation := by
  intro es u c h
  obtain ⟨hram, v, -, hfresh, haddress, hfits, rfl⟩ := yields_declareVariable h
  refine .declares haddress ?_ hfits hfresh
  change b.origin = none ∧ b.nextStart = b.ramUsed ∨
    b.origin ≠ none ∧ b.nextStart < b.globals.device.ramSize
  unfold nextStart
  cases ho : b.origin with
  | none => exact .inl ⟨rfl, rfl⟩
  | some o =>
    obtain ⟨hstart, hstop, -⟩ := (hram o ho).bounds
    refine .inr ⟨by simp, ?_⟩
    change o.value - b.globals.device.ramStart < b.globals.device.ramSize
    omega

theorem after_directive (name : Located String) (args : List (Located Expr)) :
    After (directive name args) b fun _ c =>
      Allocation.Step (.directive name args) b.allocation c.allocation := by
  unfold directive
  split
  · rw [after_bind]
    apply after_rejectOrigin
    simp only [after_bind, after_get, after_lift, after_modify]
    intro _ _ _ _
    exact .directs
  · simp

/-- Items other than declarations and directives only take away a waiting `org`. -/
theorem after_item (i : Located Item) :
    After (item i) b fun _ c => Allocation.Step i.value b.allocation c.allocation := by
  obtain ⟨l, i⟩ := i
  cases i with
  | directive name args => exact after_directive name args
  | var decl => exact after_declareVariable decl
  | procedure p =>
    change After (procedure p) b _
    unfold procedure
    split
    · exact after_rejectOrigin (.keeps rfl (by simp [Item.isDirective]))
    · rw [after_bind]
      apply after_placeCode
      simp only [after_bind, after_lift]
      intro _ _ _ _
      exact after_counting fun _ => .keeps rfl (by simp [Item.isDirective])
  | externalProcedure p => exact after_rejectOrigin (.keeps rfl (by simp [Item.isDirective]))
  | externalVar decl =>
    change After (declareExternal decl) b _
    rw [declareExternal, after_bind]
    apply after_rejectOrigin
    simp only [after_bind, after_get, after_lift, after_set]
    intro _ _ _ _ _ _
    exact .keeps rfl (by simp [Item.isDirective])
  | pin name target =>
    change After (declarePin name target) b _
    rw [declarePin, after_bind]
    apply after_rejectOrigin
    simp only [after_bind, after_get, after_lift]
    intro _ _ _ _
    split
    · simp only [after_bind, after_lift, after_set]
      intro _ _
      exact .keeps rfl (by simp [Item.isDirective])
    · simp only [after_set]
      exact .keeps rfl (by simp [Item.isDirective])
  | use a =>
    change After (declareAlias a) b _
    rw [declareAlias, after_bind]
    apply after_rejectOrigin
    simp only [after_bind, after_get, after_lift, after_set]
    intro _ _
    exact .keeps rfl (by simp [Item.isDirective])
  | label name =>
    refine after_bind.mpr (after_placeCode ?_)
    simp only [after_lift]
    intro _ _
    exact .keeps rfl (by simp [Item.isDirective])
  | data block =>
    refine after_bind.mpr (after_placeCode ?_)
    simp only [after_bind, after_get, after_lift]
    intro _ _ _ _
    exact .keeps rfl (by simp [Item.isDirective])

end Build

namespace Allocation

/-- Items one after the other. -/
inductive Run : List Item → Allocation → Allocation → Prop
  | nil {a : Allocation} : Run [] a a
  | cons {i : Item} {is : List Item} {a b c : Allocation} (hstep : Step i a b) (hrun : Run is b c) :
      Run (i :: is) a c

variable {i : Item} {is : List Item} {a b : Allocation}

theorem Step.device_eq (h : Step i a b) : b.device = a.device := by
  cases h <;> rfl

/-- Each declaration adds a variable. -/
theorem Run.vars_eq (h : Run is a b) :
    ∃ vs, b.vars = vs ++ a.vars ∧ vs.length = (is.filterMap Item.var?).length := by
  induction h with
  | nil => exact ⟨[], rfl, rfl⟩
  | cons hstep _ ih =>
    obtain ⟨vs, hvs, hlength⟩ := ih
    cases hstep with
    | @declares _ _ v => exact ⟨vs ++ [v], by simp [hvs], by simp [Item.var?, hlength]⟩
    | directs => exact ⟨vs, hvs, hlength⟩
    | keeps hvar _ => exact ⟨vs, hvs, by simpa [hvar] using hlength⟩

theorem Run.vars_subset (h : Run is a b) : a.vars ⊆ b.vars := by
  obtain ⟨vs, hvs, -⟩ := h.vars_eq
  simp [hvs]

/-- RAM has an end among the words of 32 bits. -/
def Bounded (a : Allocation) : Prop := a.device.ramStart + a.device.ramSize < UInt32.size

theorem Step.bounded (h : Step i a b) (ha : a.Bounded) : b.Bounded := by
  rw [Bounded, h.device_eq]
  exact ha

/-- Where sizes do not overflow, words add up like numbers. -/
theorem Bounded.exact {v : Variable} {start : Nat} (ha : a.Bounded)
    (hstart : start ≤ a.device.ramSize)
    (haddress : v.address = wrap32 (a.device.ramStart + start)) (hv : v.stop < UInt32.size) :
    v.address = a.device.ramStart + start ∧ wrap32 (start + v.size) = start + v.extent := by
  unfold Bounded at ha
  rw [wrap32_of_lt (by omega)] at haddress
  refine ⟨haddress, ?_⟩
  rw [Variable.size_of_stop_lt hv]
  unfold Variable.stop at hv
  exact wrap32_of_lt (by omega)

/-- The variables lie in RAM unless their sizes overflow, under names of their own. -/
structure Fits (a : Allocation) : Prop where
  within : ∀ v ∈ a.vars, v.stop < UInt32.size → v.Within a.device
  used : a.used ≤ a.device.ramSize
  distinct : (a.vars.map (·.name)).Nodup

theorem fits_empty (d : Device) : (empty d).Fits :=
  ⟨by simp [empty], Nat.zero_le _, by simp [empty]⟩

theorem Step.fits (h : Step i a b) (hbounded : a.Bounded) (ha : a.Fits) : b.Fits := by
  cases h with
  | @declares _ _ v start haddress hstart hfits hfresh =>
    refine ⟨?_, hfits, List.nodup_cons.mpr ⟨hfresh, ha.distinct⟩⟩
    intro w hw hwords
    rcases List.mem_cons.mp hw with rfl | hw
    · have hle : start ≤ a.device.ramSize := by
        have := ha.used
        omega
      obtain ⟨haddress, hused⟩ := hbounded.exact hle haddress hwords
      rw [hused] at hfits
      unfold Variable.Within Variable.stop
      simp only
      omega
    · exact ha.within w hw hwords
  | directs => exact ⟨ha.within, ha.used, ha.distinct⟩
  | keeps => exact ⟨ha.within, ha.used, ha.distinct⟩

theorem Run.device_eq (h : Run is a b) : b.device = a.device := by
  induction h with
  | nil => rfl
  | cons hstep _ ih => exact ih.trans hstep.device_eq

theorem Run.fits (h : Run is a b) (hbounded : a.Bounded) (ha : a.Fits) : b.Fits := by
  induction h with
  | nil => exact ha
  | cons hstep _ ih => exact ih (hstep.bounded hbounded) (hstep.fits hbounded ha)

/-- The variables lie apart from one another, and below the first free byte. -/
structure Packed (a : Allocation) : Prop where
  apart : a.vars.Pairwise Variable.Apart
  below : ∀ v ∈ a.vars, v.stop ≤ a.device.ramStart + a.used

theorem packed_empty (d : Device) : (empty d).Packed := ⟨by simp [empty], by simp [empty]⟩

theorem Step.packed (h : Step i a b) (hbounded : a.Bounded) (hfits : a.used ≤ a.device.ramSize)
    (hwords : ∀ v ∈ b.vars, v.stop < UInt32.size) (ha : a.Packed)
    (hfree : i.var? = none ∨ a.origin = none) : b.Packed := by
  cases h with
  | @declares _ _ v start haddress hstart _ _ =>
    have horigin : a.origin = none := hfree.resolve_left (by simp [Item.var?])
    obtain ⟨-, rfl⟩ := hstart.resolve_right fun h => h.1 horigin
    obtain ⟨haddress, hused⟩ := hbounded.exact hfits haddress (hwords v (by simp))
    have hbelow : ∀ w ∈ a.vars, w.stop ≤ v.address := by
      intro w hw
      rw [haddress]
      exact ha.below w hw
    refine ⟨List.pairwise_cons.mpr ⟨fun w hw => .inr (hbelow w hw), ha.apart⟩, ?_⟩
    intro w hw
    have hv : v.stop = a.device.ramStart + wrap32 (a.used + v.size) := by
      rw [Variable.stop, haddress, hused, Nat.add_assoc]
    rcases List.mem_cons.mp hw with rfl | hw
    · exact Nat.le_of_eq hv
    · have := hbelow w hw
      rw [← hv]
      exact this.trans (Nat.le_add_right ..)
  | directs => exact ⟨ha.apart, ha.below⟩
  | keeps => exact ⟨ha.apart, ha.below⟩

/-- Only a directive leaves an `org` waiting. -/
theorem Step.origin_eq (h : Step i a b) (hi : ¬ i.isDirective) : b.origin = none := by
  cases h with
  | declares => rfl
  | directs => exact absurd rfl hi
  | keeps => rfl

/-- No `org` stands before a variable. -/
def Free (is : List Item) : Prop := is.IsChain fun i j => i.isDirective → j.var? = none

theorem Run.packed (h : Run is a b) (hbounded : a.Bounded) (hfits : a.Fits)
    (hwords : ∀ v ∈ b.vars, v.stop < UInt32.size) (ha : a.Packed) (hfree : Free is)
    (hfirst : a.origin = none ∨ ∀ i ∈ is.head?, i.var? = none) : b.Packed := by
  induction h with
  | nil => exact ha
  | @cons i is a b c hstep hrun ih =>
    obtain ⟨hhead, hrest⟩ := List.isChain_cons.mp hfree
    have hpacked := hstep.packed hbounded hfits.used (fun v hv => hwords v (hrun.vars_subset hv)) ha
      (hfirst.symm.imp_left fun h => h i rfl)
    apply ih (hstep.bounded hbounded) (hstep.fits hbounded hfits) hwords hpacked hrest
    by_cases hi : i.isDirective
    · exact .inr fun j hj => hhead j hj hi
    · exact .inl (hstep.origin_eq hi)

end Allocation

namespace Build

open Trace

theorem after_items (items : List (Located Item)) (b : Build) :
    After (items.forM item) b fun _ c =>
      Allocation.Run (items.map (·.value)) b.allocation c.allocation := by
  induction items generalizing b with
  | nil => exact after_pure.mpr .nil
  | cons i items ih =>
    refine after_bind.mpr ((after_item i).imp fun _ c hstep => ?_)
    exact (ih c).imp fun _ d hrun => .cons hstep hrun

theorem after_declareProcedures (items : List (Located Item)) (b : Build) :
    After (declareProcedures items) b fun _ c => c.allocation = b.allocation := by
  intro es u c hc
  obtain ⟨rfl, -⟩ := declareProcedures_ok hc.2
  rfl

/-- What comes before the items of a program. -/
def opening (p : Program) : Building Unit := do
  declareProcedures p.items
  match p.vectors with
  | some table => counting fun g => g.vectors table
  | none => pure ()

/-- A program up to the given items. -/
def through (p : Program) (items : List (Located Item)) : Building Unit := do
  opening p
  items.forM item

theorem program_eq (p : Program) : program p = (do through p p.items; rejectOrigin) := by
  unfold program through opening
  cases p.vectors <;> simp

theorem after_opening (p : Program) (b : Build) :
    After (opening p) b fun _ c => c.allocation = b.allocation := by
  refine after_bind.mpr ((after_declareProcedures p.items b).imp fun _ c hc => ?_)
  cases p.vectors with
  | some table => exact after_counting fun _ => hc
  | none => exact after_pure.mpr hc

theorem after_through (p : Program) (items : List (Located Item)) (b : Build) :
    After (through p items) b fun _ c =>
      Allocation.Run (items.map (·.value)) b.allocation c.allocation := by
  refine after_bind.mpr ((after_opening p b).imp fun _ c hc => ?_)
  rw [← hc]
  exact after_items items c

theorem yields_through_append {p : Program} {xs ys : List (Located Item)} :
    (through p (xs ++ ys) b).Yields es (u, c) ↔
      ∃ d as bs, (through p xs b).Yields as ((), d) ∧ (ys.forM item d).Yields bs (u, c) ∧
        es = as ++ bs := by
  simp only [through, yields_bind_state, yields_forM_append]
  constructor
  · rintro ⟨⟨⟩, a, as, _, hopening, ⟨d, bs, cs, hxs, hys, rfl⟩, rfl⟩
    exact ⟨d, as ++ bs, cs, ⟨⟨⟩, a, as, bs, hopening, hxs, rfl⟩, hys, by simp⟩
  · rintro ⟨d, _, cs, ⟨⟨⟩, a, as, bs, hopening, hxs, rfl⟩, hys, rfl⟩
    exact ⟨⟨⟩, a, as, bs ++ cs, hopening, ⟨d, bs, cs, hxs, hys, rfl⟩, by simp⟩

/-- How a program comes to the item after `pre` and what it does there: from the start to `b`
with these emissions, and from there to `c` with those of the item. -/
structure Reaches (p : Program) (start : Build) (pre : List (Located Item)) (i : Located Item)
    (before own : List Emission) (b c : Build) : Prop where
  before : (through p pre start).Yields before ((), b)
  own : (item i b).Yields own ((), c)

variable {p : Program} {start f : Build} {pre post : List (Located Item)} {i : Located Item}

/-- Nothing waits at the end of a program. -/
theorem yields_program (h : (program p start).Yields es ((), f)) :
    (through p p.items start).Yields es ((), f) ∧ f.origin = none := by
  rw [program_eq, yields_bind_state] at h
  obtain ⟨⟨⟩, d, _, _, hitems, hreject, rfl⟩ := h
  obtain ⟨rfl, ho, rfl⟩ := yields_rejectOrigin hreject
  exact ⟨by simpa using hitems, ho⟩

/-- A program comes to each of its items. -/
theorem exists_reaches (h : (program p start).Yields es ((), f)) (hp : p.items = pre ++ i :: post) :
    ∃ before own after b c, Reaches p start pre i before own b c ∧
      (post.forM item c).Yields after ((), f) ∧ es = before ++ own ++ after := by
  have hitems := (yields_program h).1
  rw [hp] at hitems
  obtain ⟨b, before, _, hbefore, hrest, rfl⟩ := yields_through_append.mp hitems
  obtain ⟨c, own, after, hown, hafter, rfl⟩ := yields_forM_cons.mp hrest
  exact ⟨before, own, after, b, c, ⟨hbefore, hown⟩, hafter, by simp⟩

/-- The variables that are known at some point are there to the end, and each declaration adds
one. -/
theorem vars_after_items {d : Build} (h : (post.forM item c).Yields es ((), d)) :
    ∃ vs, d.globals.vars = vs ++ c.globals.vars ∧
      vs.length = (post.filterMap (·.value.var?)).length := by
  obtain ⟨vs, hvs, hlength⟩ := (after_items post c _ _ _ h).vars_eq
  rw [List.filterMap_map] at hlength
  exact ⟨vs, hvs, hlength⟩

end Build

namespace Program

/-- The variables of a program in the order of their declarations. -/
def vars (p : Program) (device : Device) (links : Bool) : List Variable :=
  match (Build.program p { globals := { device }, links }).outcome with
  | .ok (_, b) => b.globals.vars.reverse
  | .error _ => []

/-- No `org` stands before a variable. -/
def LeavesRam (p : Program) : Prop := Allocation.Free (p.items.map (·.value))

end Program

/-- No sum of an address and a size is too large for a word of 32 bits. -/
structure Program.FitsWords (p : Program) (device : Device) (links : Bool) : Prop where
  ram : device.ramStart + device.ramSize < UInt32.size
  vars : ∀ v ∈ p.vars device links, v.stop < UInt32.size

theorem Program.vars_eq {program : Program} {device : Device} {links : Bool} {es : List Emission}
    {f : Build} (h : (Build.program program { globals := { device }, links }).Yields es ((), f)) :
    program.vars device links = f.globals.vars.reverse := by
  rw [Program.vars, h.2]

section

variable {device : Device} {program : Program} {outputs : Outputs} {c : Compiled}

/-- Every declaration has its variable, and there are no others. -/
theorem compile_declarations (h : compile device program outputs = .ok c) :
    let vs := program.vars device outputs.linksExternals
    let start : Build := { globals := { device }, links := outputs.linksExternals }
    vs.length = (program.items.filterMap (·.value.var?)).length ∧
      ∀ pre i post decl, program.items = pre ++ i :: post → i.value = .var decl →
        ∃ before b v, (Build.through program pre start).Yields before ((), b) ∧
          vs[(pre.filterMap (·.value.var?)).length]? = some v ∧ decl.Declares b.names v := by
  intro vs start
  obtain ⟨f, hf⟩ := compile_yields h
  have hvs : vs = f.globals.vars.reverse := Program.vars_eq hf
  have hlength (items : List (Located Item)) {es : List Emission} {b : Build}
      (hb : (Build.through program items start).Yields es ((), b)) :
      b.globals.vars.length = (items.filterMap (·.value.var?)).length := by
    obtain ⟨us, hus, hlength⟩ := (Build.after_through program items start _ _ _ hb).vars_eq
    rw [List.filterMap_map] at hlength
    change b.globals.vars = us ++ [] at hus
    rw [hus, List.append_nil]
    exact hlength
  refine ⟨?_, ?_⟩
  · rw [hvs, List.length_reverse]
    exact hlength _ (Build.yields_program hf).1
  · intro pre i post decl hp hi
    obtain ⟨before, own, after, b, d, hreaches, hafter, -⟩ := Build.exists_reaches hf hp
    obtain ⟨l, i⟩ := i
    obtain rfl : i = .var decl := hi
    obtain ⟨-, v, hv, -, -, -, rfl⟩ := Build.yields_declareVariable hreaches.own
    obtain ⟨ws, hws, -⟩ := Build.vars_after_items hafter
    refine ⟨before, b, v, hreaches.before, ?_, hv⟩
    rw [hvs, hws, ← hlength pre hreaches.before]
    simp

/-- Where no size overflows, the variables lie in RAM, and they lie apart unless an `org` puts them
elsewhere. -/
theorem compile_variables (h : compile device program outputs = .ok c)
    (hwords : program.FitsWords device outputs.linksExternals) :
    let vs := program.vars device outputs.linksExternals
    (vs.map (·.name)).Nodup ∧ (∀ v ∈ vs, v.Within device) ∧
      (program.LeavesRam → vs.Pairwise Variable.Apart) := by
  intro vs
  obtain ⟨f, hf⟩ := compile_yields h
  have hvs : vs = f.globals.vars.reverse := Program.vars_eq hf
  have hrun := Build.after_through program program.items _ _ _ _ (Build.yields_program hf).1
  have hrun : Allocation.Run _ (.empty device) f.allocation := hrun
  have hfits := hrun.fits hwords.ram (Allocation.fits_empty device)
  have hbytes : ∀ v ∈ f.globals.vars, v.stop < UInt32.size := by
    intro v hv
    apply hwords.vars
    change v ∈ vs
    rw [hvs]
    exact List.mem_reverse.mpr hv
  simp only [hvs, List.mem_reverse, List.map_reverse, List.nodup_reverse, List.pairwise_reverse]
  refine ⟨hfits.distinct, fun v hv => ?_, fun hfree => ?_⟩
  · have hwithin := hfits.within v hv (hbytes v hv)
    rwa [hrun.device_eq] at hwithin
  · have hpacked := hrun.packed hwords.ram (Allocation.fits_empty device) hbytes
      (Allocation.packed_empty device) hfree (.inl rfl)
    exact hpacked.apart.imp .symm

end

end Avr
