import Avr.Proofs.Placement

namespace Avr

namespace Lowering

open Trace

/-- Does the same wherever the same aliases are in force, and changes nothing. -/
def Steady (code : Lowering α) : Prop :=
  ∀ p q es a, (code p).Yields es (a, q) →
    q = p ∧ ∀ r : Progress, r.aliases = p.aliases → (code r).Yields es (a, r)

theorem Stateless.steady {code : Lowering α} (h : code.Stateless Emission.InPlace) :
    Steady code := by
  obtain ⟨f, hcode, -⟩ := h
  intro p q es a hy
  rw [hcode, yields_lift] at hy
  obtain ⟨ha, rfl⟩ := hy
  refine ⟨rfl, fun r hr => ?_⟩
  rw [hcode, yields_lift, hr]
  exact ⟨ha, rfl⟩

theorem steady_pure (a : α) : Steady (pure a : Lowering α) := (stateless_pure a).steady

theorem steady_lift (x : Trace α) : Steady (liftM x : Lowering α) := by
  intro p q es a h
  obtain ⟨hx, rfl⟩ := yields_lift.mp h
  exact ⟨rfl, fun r _ => yields_lift.mpr ⟨hx, rfl⟩⟩

theorem steady_bind {code : Lowering α} {f : α → Lowering β} (h : Steady code)
    (hf : ∀ a, Steady (f a)) : Steady (code >>= f) := by
  intro p q es b hbind
  rw [yields_bind_state] at hbind
  obtain ⟨a, r, xs, ys, ha, hb, rfl⟩ := hbind
  obtain ⟨rfl, hcode⟩ := h _ _ _ _ ha
  obtain ⟨rfl, hrest⟩ := hf a _ _ _ _ hb
  refine ⟨rfl, fun r hr => ?_⟩
  exact yields_bind_state.mpr ⟨a, r, xs, ys, hcode r hr, hrest r hr, rfl⟩

theorem steady_forM {xs : List α} {f : α → Lowering PUnit} (h : ∀ x, Steady (f x)) :
    Steady (xs.forM f) := by
  induction xs with
  | nil => exact steady_pure _
  | cons x xs ih => exact steady_bind (h x) fun _ => ih

end Lowering

namespace Scope

open Lowering Trace

section

variable (s : Scope)

/-- The instruction as it is written, its operands being found by the names in force. -/
def written? (aliases : Aliases) (i : AsmInstruction) : Option Instruction := do
  let m ← Mnemonic.ofName? i.mnemonic.value
  let slots := (m.formOfLength? i.operands.length).getD []
  let (operands, _) ← (s.operands slots none i.operands { aliases }).outcome.toOption
  return ⟨m, operands, s.comment⟩

end

variable {s : Scope} {p q : Progress} {es : List Emission}

/-- The instruction that is written comes last, after the code that moves arguments. -/
theorem yields_written {i : AsmInstruction} {size : Nat} (h : (s.asm i p).Yields es (size, q)) :
    ∃ xs r, s.written? p.aliases i = some r ∧ (∀ e ∈ xs, e.isInstruction) ∧ size = r.size ∧
      q = p ∧ es = xs ++ [.instruction ⟨i.mnemonic.location, r⟩] := by
  simp only [asm, yields_bind_state, yields_lift, yields_get] at h
  obtain ⟨m, _, _, _, ⟨⟨rfl, hm⟩, rfl⟩, ⟨operands, _, xs, _, hops, ⟨_, _, _, _, hp, h, rfl⟩, rfl⟩,
    rfl⟩ := h
  obtain ⟨⟨is, his, rfl⟩, rfl⟩ := yields_place.mp hp
  obtain ⟨rfl, rfl, rfl⟩ := yields_pure_state.mp h
  have hoperands {P : Emission → Prop} (hP : ∀ i, P (.instruction i)) :
      Stateless P (s.operands ((m.formOfLength? i.operands.length).getD []) none i.operands) :=
    stateless_operands fun l call _ => s.stateless_callTarget hP l call
  obtain ⟨rfl, hsteady⟩ := (hoperands fun _ => trivial).steady _ _ _ _ hops
  refine ⟨xs, ⟨m, operands, s.comment⟩, ?_, ?_, rfl, rfl, ?_⟩
  · simp [written?, hm, (hsteady { aliases := _ } rfl).2, Except.toOption]
  · rw [← hops.1]
    exact (hoperands fun _ => rfl).emitsFrom _
  · rw [Selection.gives_emit his]
    simp [Instruction.withComment]

/-- Where there is room for one instruction only, there is no code for arguments. -/
theorem yields_written_alone {i : AsmInstruction} {size : Nat}
    (h : (s.asm i p).Yields es (size, q)) (hcount : es.countP Emission.isInstruction ≤ 1) :
    ∃ r, s.written? p.aliases i = some r ∧ size = r.size ∧ q = p ∧
      es = [.instruction ⟨i.mnemonic.location, r⟩] := by
  obtain ⟨xs, r, hr, hxs, hsize, hq, rfl⟩ := yields_written h
  have hlength : xs.countP Emission.isInstruction = xs.length := List.countP_eq_length.mpr hxs
  have hnil : xs = [] := by
    rw [← List.length_eq_zero_iff]
    simp only [List.countP_append, List.countP_singleton, Emission.isInstruction, hlength,
      if_true] at hcount
    omega
  exact ⟨r, hr, hsize, hq, by rw [hnil]; rfl⟩

end Scope

end Avr
