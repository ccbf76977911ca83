import Mathlib.Data.List.Nodup
import Avr.Lowering.Move
import Avr.Proofs.Numbers

namespace Avr

open Cpu

namespace Move

/-- Destinations with their sources, byte by byte. -/
def pairs : Move → List (Reg × Reg)
  | byte d s => [(d, s)]
  | word d s => [(d.low, s.low), (d.high, s.high)]

theorem map_fst_pairs (m : Move) : m.pairs.map Prod.fst = m.destinations := by
  cases m <;> rfl

theorem map_snd_pairs (m : Move) : m.pairs.map Prod.snd = m.sources := by
  cases m <;> rfl

theorem pairs_word {m n : Reg × Reg} {w : Move} (h : word? m n = some w) : w.pairs = [m, n] := by
  have hhigh {p : Pair} {r q : Reg} (hp : p.low = r) (hq : q.number = r.number + 1) :
      p.high = q := by
    subst hp
    obtain ⟨⟨k, hk⟩⟩ := q
    simpa [Pair.high, Pair.low, Reg.number, eq_comm] using hq
  obtain ⟨d, s⟩ := m
  obtain ⟨d', s'⟩ := n
  unfold word? at h
  split at h
  · next hn =>
    simp only [Option.bind_eq_bind, Option.bind_eq_some_iff, Option.pure_def,
      Option.some.injEq] at h
    obtain ⟨p, hp, q, hq, rfl⟩ := h
    have hd := Pair.ofLow_some hp
    have hs := Pair.ofLow_some hq
    simp only [pairs, hd, hs, hhigh hd hn.1, hhigh hs hn.2]
  · cases h

/-- Joining moves changes neither what is moved nor the order. -/
theorem pairs_fuse (ms : List (Reg × Reg)) : (fuse ms).flatMap pairs = ms := by
  fun_induction fuse ms with
  | case1 => rfl
  | case2 m => rfl
  | case3 m n rest w hw ih => simp [pairs_word hw, ih]
  | case4 m n rest hw ih => simp [pairs, ih]

/-- One move reads all of its sources before it writes. -/
theorem ends_select {m : Move} {is : List Instruction} (h : m.select.Gives is) (s : Cpu) :
    Ends is s fun t => (∀ x ∈ m.pairs, t.regs x.1 = s.regs x.2) ∧
      ∀ q, q ∉ m.destinations → t.regs q = s.regs q := by
  cases m with
  | byte d r =>
    simp only [select, Selection.onRegs] at h
    rw [Selection.gives_emit h]
    refine ends_one rfl ⟨by simp [pairs], fun q hq => set_regs_of_ne _ _ ?_⟩
    simpa [destinations] using hq
  | word d r =>
    simp only [select] at h
    rw [Selection.gives_emit h]
    refine ends_one rfl ⟨?_, fun q hq => setWord_other s d _ q ?_⟩
    · simp [pairs, setWord_low, setWord_high, extract_word]
    · simpa [destinations, and_comm] using hq

/-- A plan in which no move reads what an earlier one has written. -/
theorem ends_moves {ms : List Move} {written : List Reg} (hc : ¬ clobbersAfter written ms)
    (hd : (ms.flatMap destinations).Nodup) {is : List Instruction}
    (h : (Selection.sequence (ms.map select)).Gives is) {s₀ s : Cpu}
    (hs : ∀ q, q ∉ written → s.regs q = s₀.regs q) :
    Ends is s fun t => (∀ x ∈ ms.flatMap pairs, t.regs x.1 = s₀.regs x.2) ∧
      ∀ q, q ∉ ms.flatMap destinations → t.regs q = s.regs q := by
  induction ms generalizing written s is with
  | nil =>
    rw [Selection.gives_sequence_nil.mp h]
    exact ends_nil ⟨by simp, fun _ _ => rfl⟩
  | cons m ms ih =>
    obtain ⟨js, ks, hj, hk, rfl⟩ := Selection.gives_sequence_cons.mp h
    simp only [clobbersAfter, Bool.or_eq_true, not_or] at hc
    rw [List.flatMap_cons, List.nodup_append] at hd
    refine (ends_select hj s).append (fun u hu => ?_)
    have hu' : ∀ q, q ∉ written ++ m.destinations → u.regs q = s₀.regs q := by
      intro q hq
      simp only [List.mem_append, not_or] at hq
      rw [hu.2 q hq.2, hs q hq.1]
    refine (ih hc.2 hd.2.1 hk hu').imp ?_
    rintro t ⟨hv, ho⟩
    refine ⟨?_, ?_⟩
    · intro x hx
      rw [List.flatMap_cons, List.mem_append] at hx
      rcases hx with hx | hx
      · have hdest : x.1 ∈ m.destinations := by
          rw [← map_fst_pairs]
          exact List.mem_map_of_mem hx
        have hsource : x.2 ∈ m.sources := by
          rw [← map_snd_pairs]
          exact List.mem_map_of_mem hx
        have hlater : x.1 ∉ ms.flatMap destinations := fun hm => hd.2.2 _ hdest _ hm rfl
        have hfresh : x.2 ∉ written := by
          intro hw
          exact hc.1 (List.any_eq_true.mpr ⟨x.2, hsource, by simpa using hw⟩)
        rw [ho x.1 hlater, hu.1 x hx, hs x.2 hfresh]
      · exact hv x hx
    · intro q hq
      rw [List.flatMap_cons, List.mem_append, not_or] at hq
      rw [ho q hq.2, hu.2 q hq.1]

theorem flatMap_destinations (ms : List Move) :
    ms.flatMap destinations = (ms.flatMap pairs).map Prod.fst := by
  simp [List.map_flatMap, map_fst_pairs]

/-- The bytes that are not yet in their place, by rising destination. -/
def rising (dest source : List Reg) : List (Reg × Reg) :=
  ((dest.zip source).filter fun x => x.1 ≠ x.2).mergeSort fun m n => m.1.number ≤ n.1.number

theorem rising_perm (dest source : List Reg) :
    (rising dest source).Perm ((dest.zip source).filter fun x => x.1 ≠ x.2) :=
  List.mergeSort_perm _ _

/-- There is no plan, or it is that of the rising destinations or that of the falling ones. -/
theorem plan_cases (dest source : List Reg) :
    (plan? dest source = none ∧ clobbers (fuse (rising dest source)) ∧
      clobbers (fuse (rising dest source)).reverse) ∨
    ∃ ms ∈ [fuse (rising dest source), (fuse (rising dest source)).reverse],
      ¬ clobbers ms ∧ plan? dest source = some ms := by
  have hplan : plan? dest source =
      if !clobbers (fuse (rising dest source)) then some (fuse (rising dest source))
      else if !clobbers (fuse (rising dest source)).reverse
        then some (fuse (rising dest source)).reverse else none := rfl
  rw [hplan]
  split
  · next hrising => exact .inr ⟨_, by simp, by simpa using hrising, rfl⟩
  · next hrising =>
    split
    · next hfalling => exact .inr ⟨_, by simp, by simpa using hfalling, rfl⟩
    · next hfalling => exact .inl ⟨rfl, by simpa using hrising, by simpa using hfalling⟩

/-- A plan moves every byte that is not yet in its place. -/
theorem plan_some {dest source : List Reg} {ms : List Move} (h : plan? dest source = some ms) :
    ¬ clobbers ms ∧
      (ms.flatMap pairs).Perm ((dest.zip source).filter fun x => x.1 ≠ x.2) := by
  rcases plan_cases dest source with ⟨hnone, -, -⟩ | ⟨ns, hmem, hc, hsome⟩
  · rw [hnone] at h
    cases h
  · obtain rfl : ms = ns := Option.some.inj (h.symm.trans hsome)
    have hperm : (ms.flatMap pairs).Perm ((fuse (rising dest source)).flatMap pairs) := by
      simp only [List.mem_cons, List.not_mem_nil, or_false] at hmem
      rcases hmem with rfl | rfl
      · exact .refl _
      · exact (List.reverse_perm _).flatMap_right _
    rw [pairs_fuse] at hperm
    exact ⟨hc, hperm.trans (rising_perm dest source)⟩

end Move

namespace Selection

/-- A group that is moved into another is there byte for byte as it was before. -/
theorem ends_moveGroup {dest source : List Reg} (hd : dest.Nodup) {is : List Instruction}
    (h : (moveGroup dest source).Gives is) (s : Cpu) :
    dest.length = source.length ∧
      Ends is s fun t => (∀ x ∈ dest.zip source, t.regs x.1 = s.regs x.2) ∧
        ∀ q, q ∉ dest → t.regs q = s.regs q := by
  unfold moveGroup at h
  split at h
  · exact absurd h not_gives_fail
  next hlen =>
  have hlen : dest.length = source.length := by simpa using hlen
  refine ⟨hlen, ?_⟩
  split at h
  · next ms hplan =>
    obtain ⟨hc, hp⟩ := Move.plan_some hplan
    have hfst : (dest.zip source).map Prod.fst = dest := List.map_fst_zip (by omega)
    have hnodup : (ms.flatMap Move.destinations).Nodup := by
      rw [Move.flatMap_destinations, (hp.map Prod.fst).nodup_iff]
      refine List.Nodup.sublist (List.filter_sublist.map _) ?_
      rwa [hfst]
    refine (Move.ends_moves hc hnodup h fun _ _ => rfl).imp ?_
    rintro t ⟨hv, ho⟩
    refine ⟨?_, ?_⟩
    · intro x hx
      by_cases he : x.1 = x.2
      · -- A byte that is in its place already is not moved, and nothing else is moved there.
        rw [← he]
        refine ho x.1 fun hm => ?_
        rw [Move.flatMap_destinations, (hp.map Prod.fst).mem_iff] at hm
        obtain ⟨y, hy, hyx⟩ := List.mem_map.mp hm
        obtain ⟨hy, hne⟩ := List.mem_filter.mp hy
        obtain rfl := List.inj_on_of_nodup_map (hfst.symm ▸ hd) hy hx hyx
        simp [he] at hne
      · exact hv x (hp.mem_iff.mpr (List.mem_filter.mpr ⟨hx, by simpa using he⟩))
    · intro q hq
      refine ho q fun hm => hq ?_
      rw [Move.flatMap_destinations, (hp.map Prod.fst).mem_iff] at hm
      obtain ⟨x, hx, rfl⟩ := List.mem_map.mp hm
      exact (List.of_mem_zip (List.mem_filter.mp hx).1).1
  · exact absurd h not_gives_fail

end Selection

end Avr
