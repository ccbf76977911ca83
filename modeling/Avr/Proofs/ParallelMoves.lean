import Avr.Lowering.Trace
import Avr.Proofs.Moves
import Avr.Proofs.Sorting

namespace Avr

open Cpu

namespace Move

/-- Some move reads a register that a move before it has overwritten. -/
def ReadsOverwritten (ms : List Move) : Prop :=
  ∃ n m, [n, m].Sublist ms ∧ ∃ r ∈ m.sources, r ∈ n.destinations

/-- The instruction that does the move. -/
def instruction : Move → Instruction
  | byte d s => { mnemonic := .mov, operands := [.reg d, .reg s] }
  | word d s => { mnemonic := .movw, operands := [.pair d, .pair s] }

theorem gives_select (m : Move) : m.select.Gives [m.instruction] := by
  cases m with
  | byte d s => exact Selection.gives_onRegs rfl d s
  | word d s =>
    rw [select, Selection.gives_emit_iff]
    exact ⟨⟨[.evenPair, .evenPair], rfl⟩, rfl⟩

theorem gives_moves (ms : List Move) :
    (Selection.sequence (ms.map select)).Gives (ms.map instruction) := by
  induction ms with
  | nil => exact Selection.gives_sequence_nil.mpr rfl
  | cons m ms ih => exact Selection.gives_sequence_cons.mpr ⟨_, _, gives_select m, ih, rfl⟩

theorem readsOverwritten_cons {m : Move} {ms : List Move} :
    ReadsOverwritten (m :: ms) ↔
      (∃ n ∈ ms, ∃ r ∈ n.sources, r ∈ m.destinations) ∨ ReadsOverwritten ms := by
  constructor
  · rintro ⟨n, k, hsub, hr⟩
    rcases List.sublist_cons_iff.mp hsub with hsub | ⟨_, heq, hsub⟩
    · exact .inr ⟨n, k, hsub, hr⟩
    · obtain ⟨rfl, rfl⟩ := List.cons.inj heq
      exact .inl ⟨k, List.singleton_sublist.mp hsub, hr⟩
  · rintro (⟨k, hk, hr⟩ | ⟨n, k, hsub, hr⟩)
    · exact ⟨m, k, (List.singleton_sublist.mpr hk).cons_cons m, hr⟩
    · exact ⟨n, k, hsub.cons m, hr⟩

/-- The check goes through the moves once and remembers what they have written. -/
theorem clobbersAfter_iff {written : List Reg} {ms : List Move} :
    clobbersAfter written ms ↔
      (∃ m ∈ ms, ∃ r ∈ m.sources, r ∈ written) ∨ ReadsOverwritten ms := by
  induction ms generalizing written with
  | nil => simp [clobbersAfter, ReadsOverwritten]
  | cons m ms ih =>
    rw [clobbersAfter, Bool.or_eq_true, ih, readsOverwritten_cons]
    simp only [List.any_eq_true, decide_eq_true_eq, List.mem_cons, List.mem_append]
    grind

theorem clobbers_iff {ms : List Move} : clobbers ms ↔ ReadsOverwritten ms := by
  rw [clobbers, clobbersAfter_iff]
  simp

theorem pairwise_rising {dest source : List Reg} (hlen : dest.length = source.length)
    (hd : dest.Nodup) :
    (rising dest source).Pairwise fun x y => x.1.number < y.1.number := by
  have hdistinct : ((rising dest source).map Prod.fst).Nodup := by
    rw [((rising_perm dest source).map Prod.fst).nodup_iff]
    refine List.Nodup.sublist (List.filter_sublist.map _) ?_
    rwa [List.map_fst_zip (by omega)]
  have hsorted : (rising dest source).Pairwise fun x y => x.1.number ≤ y.1.number :=
    pairwise_mergeSort_key (fun x : Reg × Reg => x.1.number) _
  refine (hsorted.and (List.pairwise_map.mp hdistinct)).imp fun {x y} hxy => ?_
  exact Nat.lt_of_le_of_ne hxy.1 fun he => hxy.2 (Reg.number_inj he)

end Move

namespace Selection

open Move

/-- Distinct registers get what others hold, all at once: either there are moves by which each
destination ends up with what its source held at first and no other register changes, or there is a
fault and no code. These are the moves of the bytes that are not yet in their place, by rising or by
falling destination and joined where a pair can be moved; there is a fault only if in both of these
orders some register is read that has been overwritten. -/
theorem moveGroup_at_once (dest source : List Reg) (hlen : dest.length = source.length)
    (hd : dest.Nodup) :
    ∃ moves : List (Reg × Reg), moves.Perm ((dest.zip source).filter fun x => x.1 ≠ x.2) ∧
      moves.Pairwise (fun x y => x.1.number < y.1.number) ∧
      ((moveGroup dest source = fail .clobberedMove ∧
          (∀ comment l, (Trace.place comment l (moveGroup dest source)).emitted = []) ∧
          ReadsOverwritten (fuse moves) ∧ ReadsOverwritten (fuse moves).reverse) ∨
        ∃ c, moveGroup dest source = .ok c ∧
          (∃ plan ∈ [fuse moves, (fuse moves).reverse], c.instructions = plan.map instruction) ∧
          ∀ s, ∃ t, run c.instructions s = some t ∧
            (∀ x ∈ dest.zip source, t.regs x.1 = s.regs x.2) ∧
            ∀ q, q ∉ dest → t.regs q = s.regs q) := by
  refine ⟨rising dest source, rising_perm dest source, pairwise_rising hlen hd, ?_⟩
  rcases plan_cases dest source with ⟨hnone, hrising, hfalling⟩ | ⟨ms, hmem, -, hsome⟩
  · have hfail : moveGroup dest source = fail .clobberedMove := by
      rw [moveGroup, if_neg (by simp [hlen]), hnone]
    refine .inl ⟨hfail, fun comment l => ?_, clobbers_iff.mp hrising, clobbers_iff.mp hfalling⟩
    rw [hfail]
    rfl
  · have hgives : (moveGroup dest source).Gives (ms.map instruction) := by
      rw [moveGroup, if_neg (by simp [hlen]), hsome]
      exact gives_moves ms
    obtain ⟨c, hc, his⟩ := hgives
    refine .inr ⟨c, hc, ⟨ms, hmem, his⟩, fun s => ?_⟩
    exact (ends_moveGroup hd ⟨c, hc, rfl⟩ s).2

namespace MoveSample

/-- `r21.r20.r19.r18` -/
def high : List Reg := [⟨21⟩, ⟨20⟩, ⟨19⟩, ⟨18⟩]

/-- `r19.r18.r17.r16` -/
def low : List Reg := [⟨19⟩, ⟨18⟩, ⟨17⟩, ⟨16⟩]

/-- By rising destination. -/
def moves : List (Reg × Reg) := [(⟨18⟩, ⟨16⟩), (⟨19⟩, ⟨17⟩), (⟨20⟩, ⟨18⟩), (⟨21⟩, ⟨19⟩)]

end MoveSample

open MoveSample in
theorem moveGroup_at_once_overlapping :
    ∃ c, moveGroup high low = .ok c ∧ ∀ s, ∃ t, run c.instructions s = some t ∧
      (∀ x ∈ high.zip low, t.regs x.1 = s.regs x.2) ∧ ∀ q, q ∉ high → t.regs q = s.regs q := by
  obtain ⟨ms, hperm, hsorted, hcases⟩ := moveGroup_at_once high low rfl (by decide)
  rcases hcases with ⟨-, -, -, hreads⟩ | ⟨c, hc, -, hruns⟩
  · -- There is one way only to sort the moves.
    obtain rfl : ms = moves :=
      (hperm.trans (by decide)).eq_of_pairwise (fun _ _ _ _ h h' => absurd h (by omega)) hsorted
        (by decide)
    exact absurd (clobbers_iff.mpr hreads) (by decide)
  · exact ⟨c, hc, hruns⟩

end Selection

end Avr
