import Avr.Proofs.Cpu
import Avr.Proofs.JumpTargets

namespace Avr

open Outcome

namespace Trace

/-- Comes out well with this result, and emits just this. -/
def Yields (t : Trace α) (es : List Emission) (a : α) : Prop := t.emitted = es ∧ t.outcome = .ok a

variable {es : List Emission}

@[simp] theorem yields_pure {a b : α} : (pure a : Trace α).Yields es b ↔ es = [] ∧ a = b := by
  simp [Yields, pure, eq_comm]

theorem yields_bind {x : Trace α} {f : α → Trace β} {b : β} :
    (x >>= f).Yields es b ↔ ∃ a xs ys, x.Yields xs a ∧ (f a).Yields ys b ∧ es = xs ++ ys := by
  cases h : x.outcome with
  | error e => simp [Yields, bind_error h, h]
  | ok a =>
    rw [bind_ok h]
    constructor
    · rintro ⟨rfl, hb⟩
      exact ⟨a, _, _, ⟨rfl, h⟩, ⟨rfl, hb⟩, rfl⟩
    · rintro ⟨a', _, _, ⟨rfl, ha⟩, ⟨rfl, hb⟩, rfl⟩
      obtain rfl : a = a' := Except.ok.inj (h.symm.trans ha)
      exact ⟨rfl, hb⟩

@[simp] theorem not_yields_fail {l : Location} {e : SemanticError} {a : α} :
    ¬ (fail l e : Trace α).Yields es a := by
  simp [Yields, fail, throw]

@[simp] theorem not_yields_throw {l : Location} {e : Error} {a : α} :
    ¬ (throw l e : Trace α).Yields es a := by
  simp [Yields, throw]

@[simp] theorem yields_emit {e : Emission} {u : Unit} : (emit e).Yields es u ↔ es = [e] := by
  simp [Yields, emit, eq_comm]

@[simp] theorem yields_define {l : Location} {name : String} {u : Unit} :
    (define l name).Yields es u ↔ es = [.label ⟨l, name⟩] :=
  yields_emit

@[simp] theorem yields_get {l : Location} {e : SemanticError} {o : Option α} {a : α} :
    (get l e o).Yields es a ↔ es = [] ∧ o = some a := by
  cases o <;> simp [get]

@[simp] theorem yields_require {l : Location} {e : SemanticError} {c : Prop} [Decidable c]
    {u : Unit} : (require l e c).Yields es u ↔ es = [] ∧ c := by
  unfold require
  split <;> simp [*]

theorem yields_place {comment : Option String} {l : Location} {s : Selection} {u : Unit} :
    (place comment l s).Yields es u ↔
      ∃ is, s.Gives is ∧ es = is.map fun i => .instruction ⟨l, i.withComment comment⟩ := by
  cases s with
  | error e => simp [place, Selection.Gives]
  | ok code => simp [Yields, place, Selection.Gives, eq_comm]

/-- What emits nothing at all. -/
theorem Yields.eq_nil {t : Trace α} {a : α} (h : t.Yields es a) (hn : Emits (fun _ => False) t) :
    es = [] := by
  obtain ⟨rfl, -⟩ := h
  exact List.eq_nil_iff_forall_not_mem.mpr hn

section

variable {σ : Type} {p q r : σ}

/-- A sequence of two computations with a state. -/
theorem yields_bind_state {m : StateT σ Trace α} {f : α → StateT σ Trace β} {b : β} :
    ((m >>= f) p).Yields es (b, r) ↔
      ∃ a q xs ys, (m p).Yields xs (a, q) ∧ (f a q).Yields ys (b, r) ∧ es = xs ++ ys := by
  change (m p >>= fun x => f x.1 x.2).Yields es (b, r) ↔ _
  rw [yields_bind]
  constructor
  · rintro ⟨⟨a, q⟩, xs, ys, hx, hy, rfl⟩
    exact ⟨a, q, xs, ys, hx, hy, rfl⟩
  · rintro ⟨a, q, xs, ys, hx, hy, rfl⟩
    exact ⟨(a, q), xs, ys, hx, hy, rfl⟩

@[simp] theorem yields_pure_state {a b : α} :
    ((pure a : StateT σ Trace α) p).Yields es (b, q) ↔ es = [] ∧ a = b ∧ p = q := by
  change (pure (a, p) : Trace (α × σ)).Yields es (b, q) ↔ _
  simp

@[simp] theorem yields_get_state {a : σ} :
    ((MonadState.get : StateT σ Trace σ) p).Yields es (a, q) ↔ es = [] ∧ p = a ∧ p = q := by
  change (pure (p, p) : Trace (σ × σ)).Yields es (a, q) ↔ _
  simp

@[simp] theorem yields_set_state {u : PUnit} :
    ((set r : StateT σ Trace PUnit) p).Yields es (u, q) ↔ es = [] ∧ r = q := by
  change (pure (PUnit.unit, r) : Trace (PUnit × σ)).Yields es (u, q) ↔ _
  simp

@[simp] theorem yields_modify_state {f : σ → σ} {u : PUnit} :
    ((modify f : StateT σ Trace PUnit) p).Yields es (u, q) ↔ es = [] ∧ f p = q := by
  change (pure (PUnit.unit, f p) : Trace (PUnit × σ)).Yields es (u, q) ↔ _
  simp

@[simp] theorem yields_lift {x : Trace α} {a : α} :
    ((liftM x : StateT σ Trace α) p).Yields es (a, q) ↔ x.Yields es a ∧ p = q := by
  change (x >>= fun a => pure (a, p)).Yields es (a, q) ↔ _
  rw [yields_bind]
  constructor
  · rintro ⟨a', xs, ys, hx, hy, rfl⟩
    obtain ⟨rfl, he⟩ := yields_pure.mp hy
    cases he
    exact ⟨by simpa using hx, rfl⟩
  · rintro ⟨hx, rfl⟩
    exact ⟨a, es, [], hx, yields_pure.mpr ⟨rfl, rfl⟩, by simp⟩

theorem yields_discard {m : StateT σ Trace α} {u : PUnit} :
    (discard m p).Yields es (u, q) ↔ ∃ a, (m p).Yields es (a, q) := by
  change (m p >>= fun x => pure (PUnit.unit, x.2)).Yields es (u, q) ↔ _
  rw [yields_bind]
  constructor
  · rintro ⟨⟨a, r⟩, xs, ys, hx, hy, rfl⟩
    obtain ⟨rfl, he⟩ := yields_pure.mp hy
    cases he
    exact ⟨a, by simpa using hx⟩
  · rintro ⟨a, hx⟩
    exact ⟨(a, q), es, [], hx, yields_pure.mpr ⟨rfl, rfl⟩, by simp⟩

theorem yields_forM_nil {f : α → StateT σ Trace PUnit} {u : PUnit} :
    (([] : List α).forM f p).Yields es (u, q) ↔ es = [] ∧ p = q := by
  change ((pure PUnit.unit : StateT σ Trace PUnit) p).Yields es (u, q) ↔ _
  simp

theorem yields_forM_cons {f : α → StateT σ Trace PUnit} {x : α} {xs : List α} {u : PUnit} :
    ((x :: xs).forM f p).Yields es (u, q) ↔
      ∃ r as bs, (f x p).Yields as (PUnit.unit, r) ∧ (xs.forM f r).Yields bs (u, q) ∧
        es = as ++ bs := by
  change ((f x >>= fun _ => xs.forM f) p).Yields es (u, q) ↔ _
  rw [yields_bind_state]
  constructor
  · rintro ⟨⟨⟩, h⟩
    exact h
  · intro h
    exact ⟨⟨⟩, h⟩

theorem yields_forM_append {f : α → StateT σ Trace PUnit} {xs ys : List α} {u : PUnit} :
    ((xs ++ ys).forM f p).Yields es (u, q) ↔
      ∃ r as bs, (xs.forM f p).Yields as (PUnit.unit, r) ∧ (ys.forM f r).Yields bs (u, q) ∧
        es = as ++ bs := by
  induction xs generalizing p es with
  | nil => simp
  | cons x xs ih =>
    simp only [List.cons_append, yields_forM_cons, ih]
    constructor
    · rintro ⟨_, as, _, hx, ⟨r, bs, cs, hxs, hys, rfl⟩, rfl⟩
      exact ⟨r, as ++ bs, cs, ⟨_, as, bs, hx, hxs, rfl⟩, hys, by simp⟩
    · rintro ⟨r, _, cs, ⟨_, as, bs, hx, hxs, rfl⟩, hys, rfl⟩
      exact ⟨_, as, bs ++ cs, hx, ⟨r, bs, cs, hxs, hys, rfl⟩, by simp⟩

end

end Trace

namespace Scope

open Trace

variable {s : Scope} {p q : Progress} {es : List Emission}

/-- What is found by the aliases alone is found without any code. -/
theorem yields_aliases {f : Aliases → Trace α} {a : α}
    (hf : ∀ aliases, Emits (fun _ => False) (f aliases)) :
    ((do f (← get).aliases : Lowering α) p).Yields es (a, q) ↔
      es = [] ∧ (f p.aliases).outcome = .ok a ∧ p = q := by
  rw [yields_bind_state]
  constructor
  · rintro ⟨_, _, _, _, hget, hlift, rfl⟩
    obtain ⟨rfl, rfl, rfl⟩ := yields_get_state.mp hget
    obtain ⟨hfound, rfl⟩ := yields_lift.mp hlift
    exact ⟨hfound.eq_nil (hf _), hfound.2, rfl⟩
  · rintro ⟨rfl, ha, rfl⟩
    have hnil : (f p.aliases).emitted = [] := List.eq_nil_iff_forall_not_mem.mpr (hf _)
    exact ⟨p, p, [], [], by simp, yields_lift.mpr ⟨⟨hnil, ha⟩, rfl⟩, rfl⟩

theorem yields_resolve {e : Located Expr} {v : Value} :
    (s.resolve e p).Yields es (v, q) ↔
      es = [] ∧ ((s.names p.aliases).resolve e).outcome = .ok v ∧ p = q :=
  yields_aliases (f := fun aliases => (s.names aliases).resolve e) (by simp)

theorem yields_place {l : Location} {code : Selection} {u : Unit} :
    (s.place l code p).Yields es (u, q) ↔
      (∃ is, code.Gives is ∧ es = is.map fun i => .instruction ⟨l, i.withComment s.comment⟩) ∧
        p = q := by
  rw [← Trace.yields_place (u := u)]
  exact yields_lift

/-- A written instruction comes after the code of its operands. -/
theorem yields_asm {i : AsmInstruction} {size : Nat} (h : (s.asm i p).Yields es (size, q)) :
    ∃ m operands xs, Mnemonic.ofName? i.mnemonic.value = some m ∧
      (s.operands ((m.formOfLength? i.operands.length).getD []) none i.operands p).Yields xs
        (operands, q) ∧
      es = xs ++ [.instruction ⟨i.mnemonic.location, m, operands, s.comment⟩] := by
  simp only [asm, yields_bind_state, yields_lift, yields_get] at h
  obtain ⟨m, _, _, _, ⟨⟨rfl, hm⟩, rfl⟩, ⟨operands, _, xs, _, hops, ⟨_, _, _, _, hp, h, rfl⟩, rfl⟩,
    rfl⟩ := h
  obtain ⟨⟨is, his, rfl⟩, rfl⟩ := yields_place.mp hp
  obtain ⟨rfl, -, rfl⟩ := yields_pure_state.mp h
  refine ⟨m, operands, xs, hm, hops, ?_⟩
  rw [Selection.gives_emit his]
  simp [Instruction.withComment]

end Scope

namespace Lowering

open Trace

/-- Emits nothing, and depends on nothing but the aliases. -/
def Reads (code : Lowering α) : Prop :=
  ∀ p q es a, (code p).Yields es (a, q) →
    es = [] ∧ q = p ∧ ∀ r : Progress, r.aliases = p.aliases → (code r).Yields [] (a, r)

theorem Stateless.reads {code : Lowering α} (h : code.Stateless fun _ => False) : Reads code := by
  obtain ⟨f, hcode, hf⟩ := h
  intro p q es a hy
  rw [hcode, yields_lift] at hy
  obtain ⟨ha, rfl⟩ := hy
  obtain rfl := ha.eq_nil (hf _).emits
  refine ⟨rfl, rfl, fun r hr => ?_⟩
  rw [hcode, yields_lift, hr]
  exact ⟨ha, rfl⟩

end Lowering

namespace Scope

open Lowering

variable (s : Scope)

theorem reads_operand {slot : Option Slot} (h : slot.any Slot.isJump = false)
    (last : Option IoRegister) (e : Located Expr) : Reads (s.operand slot last e) := by
  refine (stateless_operand fun call hjump => ?_).reads
  rw [h] at hjump
  cases hjump

theorem reads_operands {slots : List Slot} (h : ∀ slot ∈ slots, slot.isJump = false)
    (last : Option IoRegister) (es : List (Located Expr)) : Reads (s.operands slots last es) := by
  refine (stateless_operands fun l call hjump => ?_).reads
  obtain ⟨slot, hslot, hjump⟩ := List.any_eq_true.mp hjump
  rw [h slot hslot] at hjump
  cases hjump

end Scope

namespace Lowering

open Trace

/-- Code under a limit stands between its probes, and the bytes are left to the assembler. -/
theorem yields_limited {body : Lowering α} {maxInstructions maxBytes : Nat} {l : Location}
    {p q : Progress} {es : List Emission} {a : α}
    (h : (limited maxInstructions maxBytes l body p).Yields es (a, q)) :
    ∃ start stop fs, (body { p with probes := p.probes + 1 }).Yields fs (a, q) ∧
      fs.countP Emission.isInstruction ≤ maxInstructions ∧
      es = .label ⟨l, start⟩ :: fs ++ [.label ⟨l, stop⟩, .limit ⟨start, stop, maxBytes, l⟩] := by
  simp only [limited, yields_bind, yields_define, yields_emit] at h
  obtain ⟨_, _, _, rfl, ⟨⟨b, r⟩, fs, _, hbody, hrest, rfl⟩, rfl⟩ := h
  obtain ⟨_, _, _, rfl, ⟨_, _, _, rfl, h, rfl⟩, rfl⟩ := hrest
  rw [hbody.1] at h
  split at h
  · next hle =>
    obtain ⟨rfl, he⟩ := yields_pure.mp h
    cases he
    exact ⟨_, _, fs, hbody, hle, rfl⟩
  · split at h <;> simp at h

end Lowering

namespace Emission

def entries (es : List Emission) : List Entry := es.filterMap entry?

/-- Bytes reserved for the emissions. -/
def sizes (es : List Emission) : Nat := Entry.sizes (entries es)

@[simp] theorem sizes_nil : sizes [] = 0 := rfl

@[simp] theorem sizes_label (n : Located String) (es : List Emission) :
    sizes (.label n :: es) = sizes es := by
  simp [sizes, entries, entry?, Entry.sizes, Entry.size]

@[simp] theorem sizes_instruction (i : Located Instruction) (es : List Emission) :
    sizes (.instruction i :: es) = i.value.size + sizes es := by
  simp [sizes, entries, entry?, Entry.sizes, Entry.size]

@[simp] theorem sizes_limit (s : SizeLimit) (es : List Emission) :
    sizes (.limit s :: es) = sizes es := rfl

@[simp] theorem sizes_append (es fs : List Emission) : sizes (es ++ fs) = sizes es + sizes fs := by
  simp [sizes, entries, Entry.sizes]

end Emission

namespace Layout

/-- The first pass over a program that has no fault in it. -/
def applyAll (l : Layout) (es : List Emission) : Checked Layout := es.foldlM apply l

theorem applyAll_append {l m : Layout} {es fs : List Emission} :
    l.applyAll (es ++ fs) = .ok m ↔ ∃ k, l.applyAll es = .ok k ∧ k.applyAll fs = .ok m := by
  rw [applyAll, List.foldlM_append, bind_ok]
  rfl

theorem applyAll_cons {l m : Layout} {e : Emission} {es : List Emission} :
    l.applyAll (e :: es) = .ok m ↔ ∃ k, l.apply e = .ok k ∧ k.applyAll es = .ok m := by
  rw [applyAll, List.foldlM_cons, bind_ok]
  rfl

/-- What every call keeps holds after all of them. -/
theorem applyAll_keeps {Q : Layout → Prop} {es : List Emission} {l m : Layout}
    (hstep : ∀ e ∈ es, ∀ l m, Q l → l.apply e = .ok m → Q m) (hl : Q l)
    (h : l.applyAll es = .ok m) : Q m := by
  induction es generalizing l with
  | nil =>
    cases h
    exact hl
  | cons e es ih =>
    obtain ⟨k, hk, h⟩ := applyAll_cons.mp h
    exact ih (fun e he => hstep e (by simp [he])) (hstep e (by simp) l k hl hk) h

theorem Sound.applyAll {l m : Layout} {es : List Emission} (hs : l.Sound)
    (h : l.applyAll es = .ok m) : m.Sound :=
  applyAll_keeps (fun _ _ _ _ hl hm => Sound.apply hl hm) hs h

theorem apply_onward {l m : Layout} {e : Emission} (he : e.isOrg = false) (h : l.apply e = .ok m) :
    m.closed = l.closed ∧ m.last.origin = l.last.origin ∧
      m.last.entries.toList = l.last.entries.toList ++ e.entry?.toList := by
  cases e with
  | org origin => cases he
  | declare symbol linkage =>
    cases h
    exact ⟨rfl, rfl, by simp [Emission.entry?]⟩
  | limit s =>
    cases h
    exact ⟨rfl, rfl, by simp [last, limit, Emission.entry?]⟩
  | label name =>
    simp only [apply, label] at h
    split at h
    · cases h
    · cases h
      exact ⟨rfl, rfl, by simp [last, push, Block.push, Emission.entry?]⟩
  | instruction i =>
    cases h
    exact ⟨rfl, rfl, by simp [last, instruction, push, Block.push, Emission.entry?]⟩
  | data d =>
    cases h
    exact ⟨rfl, rfl, by simp [last, data, push, Block.push, Emission.entry?]⟩

/-- Without an `org` all goes to the end of the last block. -/
theorem applyAll_onward {l m : Layout} {es : List Emission} (hes : ∀ e ∈ es, e.isOrg = false)
    (h : l.applyAll es = .ok m) :
    m.last.origin = l.last.origin ∧
      m.last.entries.toList = l.last.entries.toList ++ Emission.entries es := by
  induction es generalizing l with
  | nil =>
    cases h
    exact ⟨rfl, by simp [Emission.entries]⟩
  | cons e es ih =>
    obtain ⟨k, hk, h⟩ := applyAll_cons.mp h
    obtain ⟨-, ho, hentries⟩ := apply_onward (hes e (by simp)) hk
    obtain ⟨ho', hentries'⟩ := ih (fun e he => hes e (by simp [he])) h
    refine ⟨ho'.trans ho, ?_⟩
    rw [hentries', hentries, List.append_assoc, Emission.entries, Emission.entries]
    cases he : e.entry? <;> simp [he]

end Layout

/-- The block goes on from what it was. -/
def Block.Extends (b c : Block) : Prop :=
  c.origin = b.origin ∧ ∃ rest, c.entries.toList = b.entries.toList ++ rest

namespace Layout

theorem mem_blocks_last {l : Layout} (h : l.last.entries ≠ #[]) : l.last ∈ l.blocks := by
  unfold last at h ⊢
  cases hc : l.current with
  | none =>
    rw [hc] at h
    exact (h rfl).elim
  | some b => simp [blocks, hc]

theorem push_extends {l : Layout} (e : Entry) {b : Block} (hb : b ∈ l.blocks) :
    ∃ c ∈ (l.push e).blocks, b.Extends c := by
  rw [blocks_push]
  rcases List.mem_append.mp hb with hm | hm
  · exact ⟨b, by simp [hm], rfl, [], by simp⟩
  · have hlast : l.last = b := by simp [last, Option.mem_toList.mp hm]
    exact ⟨l.last.push e, by simp, by rw [hlast]; rfl, [e], by simp [hlast, Block.push]⟩

/-- A block with entries stays where it is and loses none. -/
theorem apply_extends {l m : Layout} {e : Emission} (h : l.apply e = .ok m) {b : Block}
    (hb : b ∈ l.blocks) (hne : b.entries ≠ #[]) : ∃ c ∈ m.blocks, b.Extends c := by
  have hself : b.Extends b := ⟨rfl, [], by simp⟩
  cases e with
  | org origin =>
    cases h
    obtain ⟨bs, c, hblocks, -, -, hold⟩ := l.blocks_org origin
    rcases hold with ⟨hl, -⟩ | ⟨d, hl, hd, -⟩
    · exact ⟨b, by rw [hblocks]; simp [← hl, hb], hself⟩
    · rw [hl] at hb
      rcases List.mem_append.mp hb with hm | hm
      · exact ⟨b, by rw [hblocks]; simp [hm], hself⟩
      · rw [List.mem_singleton.mp hm] at hne
        exact (hne hd).elim
  | label name =>
    simp only [apply, label] at h
    split at h
    · cases h
    · cases h
      exact push_extends _ hb
  | instruction i =>
    cases h
    exact push_extends _ hb
  | data d =>
    cases h
    exact push_extends _ hb
  | limit s =>
    cases h
    exact ⟨b, hb, hself⟩
  | declare symbol linkage =>
    cases h
    exact ⟨b, hb, hself⟩

theorem applyAll_extends {l m : Layout} {es : List Emission} (h : l.applyAll es = .ok m)
    {b : Block} (hb : b ∈ l.blocks) (hne : b.entries ≠ #[]) : ∃ c ∈ m.blocks, b.Extends c := by
  refine applyAll_keeps (Q := fun l => ∃ c ∈ l.blocks, b.Extends c) ?_ ⟨b, hb, rfl, [], by simp⟩ h
  rintro e - l m ⟨c, hc, ho, rest, hrest⟩ hm
  have hcne : c.entries ≠ #[] := by
    intro hnil
    rw [hnil] at hrest
    have hb : b.entries.toList = [] := (List.append_eq_nil_iff.mp hrest.symm).1
    exact hne (by simpa using hb)
  obtain ⟨d, hd, ho', rest', hrest'⟩ := apply_extends hm hc hcne
  exact ⟨d, hd, ho'.trans ho, rest ++ rest', by rw [hrest', hrest, List.append_assoc]⟩

theorem lines_cons {l : Layout} {linker : Bool} {here : Nat} {e : Entry} {es : List Entry}
    {zs : List Line} (h : l.lines linker here (e :: es) = .ok zs) :
    ∃ x ys, l.line linker here e = .ok x ∧ l.lines linker (here + e.size) es = .ok ys ∧
      zs = x :: ys := by
  rw [lines] at h
  obtain ⟨x, hx, h⟩ := bind_ok.mp h
  obtain ⟨ys, hys, h⟩ := bind_ok.mp h
  cases h
  rw [(line_fills hx).2.length] at hys
  exact ⟨x, ys, hx, hys, rfl⟩

theorem lines_append {l : Layout} {linker : Bool} {here : Nat} {es fs : List Entry}
    {zs : List Line} (h : l.lines linker here (es ++ fs) = .ok zs) :
    ∃ xs ys, l.lines linker here es = .ok xs ∧
      l.lines linker (here + Entry.sizes es) fs = .ok ys ∧ zs = xs ++ ys := by
  rw [lines_append_eq] at h
  obtain ⟨xs, hxs, h⟩ := bind_ok.mp h
  obtain ⟨ys, hys, h⟩ := bind_ok.mp h
  cases h
  exact ⟨xs, ys, hxs, hys, rfl⟩

/-- The emissions lie from `start` on, and these are their lines. -/
structure Places (l : Layout) (linker : Bool) (start : Nat) (es : List Emission) (xs : List Line) :
    Prop where
  lines : l.lines linker start (Emission.entries es) = .ok xs
  labels : ∀ p ∈ Entry.labelsFrom start (Emission.entries es), l.labels.lookup p.1 = some p.2

namespace Places

variable {l : Layout} {linker : Bool} {start : Nat} {es fs : List Emission} {zs : List Line}

theorem append (h : l.Places linker start (es ++ fs) zs) :
    ∃ xs ys, l.Places linker start es xs ∧
      l.Places linker (start + Emission.sizes es) fs ys ∧ zs = xs ++ ys := by
  obtain ⟨hlines, hlabels⟩ := h
  rw [Emission.entries, List.filterMap_append] at hlines hlabels
  obtain ⟨xs, ys, hxs, hys, rfl⟩ := lines_append hlines
  rw [Entry.labelsFrom_append] at hlabels
  exact ⟨xs, ys, ⟨hxs, fun p hp => hlabels p (List.mem_append_left _ hp)⟩,
    ⟨hys, fun p hp => hlabels p (List.mem_append_right _ hp)⟩, rfl⟩

theorem label {n : Located String} (h : l.Places linker start (.label n :: es) zs) :
    l.labels.lookup n.value = some start ∧
      ∃ x ys, x.bytes = [] ∧ l.Places linker start es ys ∧ zs = x :: ys := by
  obtain ⟨hlines, hlabels⟩ := h
  obtain ⟨x, ys, hx, hys, rfl⟩ := lines_cons hlines
  cases hx
  refine ⟨hlabels (n.value, start) ?_, _, ys, rfl, ⟨hys, fun p hp => hlabels p ?_⟩, rfl⟩
  · simp [Emission.entries, Emission.entry?, Entry.labelsFrom, Entry.name?]
  · exact List.mem_append_right _ hp

theorem instruction {i : Located Instruction}
    (h : l.Places linker start (.instruction i :: es) zs) :
    ∃ x ys r, x.offset = start ∧ x.content = .instruction i.value r ∧
      l.resolveInstruction linker start i.value = .ok (r, x.bytes) ∧
      l.Places linker (start + i.value.size) es ys ∧ zs = x :: ys := by
  obtain ⟨hlines, hlabels⟩ := h
  obtain ⟨x, ys, hx, hys, rfl⟩ := lines_cons hlines
  simp only [line] at hx
  split at hx
  · next hr =>
    cases hx
    exact ⟨_, ys, _, rfl, rfl, hr, ⟨hys, fun p hp => hlabels p (List.mem_append_right _ hp)⟩, rfl⟩
  · cases hx

theorem limit {s : SizeLimit} (h : l.Places linker start (.limit s :: es) zs) :
    l.Places linker start es zs :=
  ⟨h.lines, h.labels⟩

theorem nil (h : l.Places linker start [] zs) : zs = [] := by
  cases h.lines
  rfl

end Places

/-- Without an `org` all goes on with the block of what was laid down last, and nothing changes that
later. -/
theorem block_after {j l : Layout} {before es after : List Emission}
    (hbefore : applyAll {} before = .ok j) (h : j.applyAll (es ++ after) = .ok l)
    (hes : ∀ e ∈ es, e.isOrg = false) (hne : Emission.entries es ≠ []) :
    ∃ c ∈ l.blocks, c.origin = j.last.origin ∧
      (∃ rest, c.entries.toList = j.last.entries.toList ++ Emission.entries es ++ rest) ∧
      ∀ p ∈ Entry.labelsFrom (j.last.origin + Entry.sizes j.last.entries.toList)
        (Emission.entries es), l.labels.lookup p.1 = some p.2 := by
  have hsound : l.Sound := (sound_empty.applyAll hbefore).applyAll h
  obtain ⟨k, hk, hafter⟩ := applyAll_append.mp h
  obtain ⟨horigin, hentries⟩ := applyAll_onward hes hk
  have hlast : k.last.entries ≠ #[] := by
    intro hempty
    rw [hempty] at hentries
    exact hne (List.append_eq_nil_iff.mp hentries.symm).2
  obtain ⟨c, hc, ho, rest, hrest⟩ := applyAll_extends hafter (mem_blocks_last hlast) hlast
  rw [horigin] at ho
  rw [hentries] at hrest
  refine ⟨c, hc, ho, ⟨rest, hrest⟩, fun p hp => ?_⟩
  rw [lookup_mem hsound.distinct, hsound.placed, List.mem_reverse, List.mem_flatMap]
  refine ⟨c, hc, ?_⟩
  rw [Block.labels, hrest, ho, Entry.labelsFrom_append, Entry.labelsFrom_append]
  exact List.mem_append_left _ (List.mem_append_right _ hp)

/-- The same in the listing. -/
theorem places_after {j l : Layout} {linker : Bool} {listing : Listing}
    {before es after : List Emission} (hbefore : applyAll {} before = .ok j)
    (h : j.applyAll (es ++ after) = .ok l) (hes : ∀ e ∈ es, e.isOrg = false)
    (hne : Emission.entries es ≠ []) (hr : l.resolve linker = .ok listing) :
    ∃ s ∈ listing.sections, ∃ pre xs post, s.origin = j.last.origin ∧
      l.lines linker j.last.origin j.last.entries.toList = .ok pre ∧
      l.Places linker (j.last.origin + Entry.sizes j.last.entries.toList) es xs ∧
      s.lines = pre ++ xs ++ post := by
  have hsound : l.Sound := (sound_empty.applyAll hbefore).applyAll h
  obtain ⟨c, hc, ho, ⟨rest, hrest⟩, hlabels⟩ := block_after hbefore h hes hne
  obtain ⟨s, hs, hblock⟩ := mem_of_forall₂ (resolve_ok hr).1.flip hc
  have hstart := (resolveBlock_fills (hsound.counted c hc) hblock).1.origin
  have hlines := resolveBlock_lines hblock
  rw [hrest, ho] at hlines
  obtain ⟨zs, post, hzs, -, hpost⟩ := lines_append hlines
  obtain ⟨pre, xs, hpre, hxs, rfl⟩ := lines_append hzs
  exact ⟨s, hs, pre, xs, post, hstart.trans ho, hpre, ⟨hxs, hlabels⟩, hpost⟩

/-- What stays in place takes up one stretch of one section. -/
theorem exists_places {l : Layout} {linker : Bool} {listing : Listing}
    {before es after : List Emission} (h : applyAll {} (before ++ es ++ after) = .ok l)
    (hes : ∀ e ∈ es, e.InPlace) (hr : l.resolve linker = .ok listing) :
    ∃ start xs, l.Places linker start es xs ∧
      (xs ≠ [] → ∃ s ∈ listing.sections, ∃ pre post, s.lines = pre ++ xs ++ post) := by
  by_cases hnil : Emission.entries es = []
  · exact ⟨0, [], ⟨by rw [hnil]; rfl, by simp [hnil, Entry.labelsFrom]⟩, fun h => (h rfl).elim⟩
  rw [List.append_assoc] at h
  obtain ⟨j, hj, h⟩ := applyAll_append.mp h
  have honward : ∀ e ∈ es, e.isOrg = false := fun e he => (hes e he).isOrg_eq
  obtain ⟨s, hs, pre, xs, post, -, -, hplaces, hlines⟩ := places_after hj h honward hnil hr
  exact ⟨_, xs, hplaces, fun _ => ⟨s, hs, pre, post, hlines⟩⟩

theorem limits_apply {l m : Layout} {e : Emission} (h : l.apply e = .ok m) :
    l.limits.toList ⊆ m.limits.toList := by
  cases e with
  | org origin =>
    cases h
    unfold org
    split
    · split <;> exact List.Subset.refl _
    · exact List.Subset.refl _
  | label name =>
    simp only [apply, label] at h
    split at h
    · cases h
    · cases h
      exact List.Subset.refl _
  | limit s =>
    cases h
    simp [limit]
  | _ =>
    cases h
    exact List.Subset.refl _

/-- A size limit among the emissions is kept. -/
theorem checkLimit_of_mem {l : Layout} {linker : Bool} {listing : Listing} {es : List Emission}
    (h : applyAll {} es = .ok l) (hr : l.resolve linker = .ok listing) {s : SizeLimit}
    (hs : .limit s ∈ es) : l.checkLimit s = .ok () := by
  obtain ⟨before, after, rfl⟩ := List.append_of_mem hs
  obtain ⟨k, -, h⟩ := applyAll_append.mp h
  obtain ⟨m, hm, h⟩ := applyAll_cons.mp h
  cases hm
  have hmem : s ∈ l.limits.toList := by
    refine applyAll_keeps (Q := fun l => s ∈ l.limits.toList) ?_ (by simp [limit]) h
    intro e _ l m hl hm
    exact limits_apply hm hl
  unfold resolve at hr
  simp only [bind_ok] at hr
  obtain ⟨_, _, _, hlimits, _⟩ := hr
  exact forM_ok hlimits s hmem

end Layout

namespace Outputs

theorem emit_apply {o p : Outputs} {e : Emission} (hf : o.formats.isEmpty = false)
    (h : o.emit e = .ok p) : o.layout.apply e = .ok p.layout ∧ p.formats = o.formats := by
  simp only [emit, hf, Bool.false_eq_true, if_false] at h
  cases e with
  | label name =>
    obtain ⟨l, hl, h⟩ := bind_ok.mp h
    cases h
    exact ⟨hl, rfl⟩
  | declare symbol linkage =>
    cases h
    cases linkage <;> exact ⟨rfl, rfl⟩
  | _ =>
    cases h
    exact ⟨rfl, rfl⟩

theorem emitAll_applyAll {o p : Outputs} {es : List Emission} (hf : o.formats.isEmpty = false)
    (h : o.emitAll es = .ok p) : o.layout.applyAll es = .ok p.layout := by
  induction es generalizing o with
  | nil =>
    cases h
    rfl
  | cons e es ih =>
    simp only [emitAll, List.foldlM_cons] at h
    obtain ⟨q, hq, h⟩ := bind_ok.mp h
    obtain ⟨happly, hformats⟩ := emit_apply hf hq
    exact Layout.applyAll_cons.mpr ⟨q.layout, happly, ih (hformats ▸ hf) h⟩

/-- A format is enough to lay out what is emitted. -/
theorem ofFormats_applyAll {formats : List Format} {options : OutputOptions} {es : List Emission}
    {o : Outputs} (hf : formats ≠ []) (h : (ofFormats formats options).emitAll es = .ok o) :
    Layout.applyAll {} es = .ok o.layout := by
  refine emitAll_applyAll (o := ofFormats formats options) ?_ h
  obtain ⟨f, hmem⟩ := List.exists_mem_of_ne_nil formats hf
  have hall : f ∈ Format.all := by cases f <;> decide
  rw [List.isEmpty_eq_false_iff_exists_mem]
  exact ⟨f, by simp [ofFormats, hall, hmem]⟩

end Outputs

/-- With a format to write, the program goes through the first pass without a fault. -/
theorem compile_applyAll {device : Device} {program : Program} {formats : List Format}
    {options : OutputOptions} {c : Compiled} (hf : formats ≠ [])
    (h : compile device program (.ofFormats formats options) = .ok c) :
    Layout.applyAll {}
        (program.lower device (Outputs.ofFormats formats options).linksExternals).emitted =
      .ok c.outputs.layout :=
  Outputs.ofFormats_applyAll hf (compile_emitAll h)

/-- A program that is accepted is lowered to its end. -/
theorem compile_yields {device : Device} {program : Program} {outputs : Outputs} {c : Compiled}
    (h : compile device program outputs = .ok c) :
    ∃ b, (Build.program program { globals := { device }, links := outputs.linksExternals }).Yields
      (program.lower device outputs.linksExternals).emitted ((), b) := by
  obtain ⟨_, _, h⟩ := bind_ok.mp h
  obtain ⟨_, houtcome, _⟩ := bind_ok.mp h
  generalize hes : (program.lower device outputs.linksExternals).emitted = es
  have hlower : (program.lower device outputs.linksExternals).Yields es () := ⟨hes, houtcome⟩
  unfold Program.lower StateT.run' at hlower
  rw [map_eq_pure_bind, Trace.yields_bind] at hlower
  obtain ⟨⟨_, b⟩, xs, ys, hb, hnil, rfl⟩ := hlower
  obtain ⟨rfl, -⟩ := Trace.yields_pure.mp hnil
  exact ⟨b, by rwa [List.append_nil]⟩

end Avr
