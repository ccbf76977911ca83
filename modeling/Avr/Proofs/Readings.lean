import Avr.Proofs.Numbers

namespace Avr.Cpu

section

variable {α : Type} (dest source : α → Reg)

/-- The steps, each with what it finds in its source. -/
def readings (first last : Cpu) : List Reg → List α → List (α × Byte)
  | _, [] => []
  | written, x :: xs =>
    (x, if source x ∈ written then last.regs (source x) else first.regs (source x)) ::
      readings first last (dest x :: written) xs

/-- Following step `x`, step `y` comes to the same as if both were done at once: it does not read
what `x` has written, or that makes no difference to it. -/
def Follows (f : Byte → Byte → Byte) (s : Cpu) (x y : α) : Prop :=
  source y = dest x → f (s.regs (dest y)) (f (s.regs (dest x)) (s.regs (source x))) =
    f (s.regs (dest y)) (s.regs (source y))

end

section

variable {α : Type} {dest source : α → Reg} {first last s t : Cpu} {written : List Reg}
  {xs : List α}

/-- A register that is written before all of the steps is read as it is in the end. -/
theorem mem_readings_of_written {y : α} (hy : y ∈ xs) (hw : source y ∈ written) :
    (y, last.regs (source y)) ∈ readings dest source first last written xs := by
  induction xs generalizing written with
  | nil => cases hy
  | cons x xs ih =>
    rw [readings, List.mem_cons]
    rcases List.mem_cons.mp hy with rfl | hy
    · exact .inl (by rw [if_pos hw])
    · exact .inr (ih hy (List.mem_cons_of_mem _ hw))

/-- Where no step reads what an earlier one has written, all read what was there at first. -/
theorem readings_eq_map (hw : ∀ x ∈ xs, source x ∉ written)
    (hp : xs.Pairwise fun x y => source y ≠ dest x) :
    readings dest source first last written xs = xs.map fun x => (x, first.regs (source x)) := by
  induction xs generalizing written with
  | nil => rfl
  | cons x xs ih =>
    obtain ⟨hx, hp⟩ := List.pairwise_cons.mp hp
    rw [readings, if_neg (hw x (by simp)), List.map_cons, ih ?_ hp]
    intro y hy hm
    rcases List.mem_cons.mp hm with he | hm
    · exact hx y hy he
    · exact hw y (by simp [hy]) hm

/-- Steps that all read what was there at first, and that change what they write, do not read what
an earlier one has written. -/
theorem pairwise_of_readings
    (h : ∀ y ∈ readings dest source first last written xs, y.2 = first.regs (source y.1))
    (hne : ∀ x ∈ xs, last.regs (dest x) ≠ first.regs (dest x)) :
    xs.Pairwise fun x y => source y ≠ dest x := by
  induction xs generalizing written with
  | nil => exact .nil
  | cons x xs ih =>
    rw [readings, List.forall_mem_cons] at h
    rw [List.forall_mem_cons] at hne
    refine .cons (fun y hy he => ?_) (ih h.2 hne.2)
    have hread := h.2 _ (mem_readings_of_written hy (by simp [he]))
    exact hne.1 (he ▸ hread)

theorem map_readings (g : α → β) :
    (readings dest source first last written xs).map (fun y => g y.1) = xs.map g := by
  induction xs generalizing written with
  | nil => rfl
  | cons x xs ih => rw [readings, List.map_cons, ih, List.map_cons]

/-- Steps with what each of them reads. The first one may start from another carry than the flag. -/
theorem ends_readings (dest source : α → Reg) (R : Byte → Byte → Bool → Byte → Bool → Prop)
    (cin : α → Cpu → Bool) {F : α → Selection}
    (hstep : ∀ x ∈ xs, ∀ is, (F x).Gives is → ∀ s, Ends is s fun t =>
      R (s.regs (dest x)) (s.regs (source x)) (cin x s) (t.regs (dest x)) t.status.carry ∧
        ∀ q, q ≠ dest x → t.regs q = s.regs q)
    (htail : ∀ x ∈ xs.tail, ∀ s, cin x s = s.status.carry) (hd : (xs.map dest).Nodup)
    (hfresh : ∀ x ∈ xs, dest x ∉ written) {is : List Instruction}
    (h : (Selection.sequence (xs.map F)).Gives is)
    (hs : ∀ q, q ∉ written → s.regs q = first.regs q) {c : Bool}
    (hhead : ∀ x ∈ xs.head?, cin x s = c) :
    Ends is s fun t =>
      (∃ c', Ripple (fun y => R (first.regs (dest y.1)) y.2) (fun y => t.regs (dest y.1))
        (readings dest source first t written xs) c c') ∧
        ∀ q, q ∉ xs.map dest → t.regs q = s.regs q := by
  induction xs generalizing s c is written with
  | nil =>
    rw [Selection.gives_sequence_nil.mp h]
    exact ends_nil ⟨⟨c, .nil c⟩, fun _ _ => rfl⟩
  | cons x xs ih =>
    obtain ⟨js, ks, hj, hk, rfl⟩ := Selection.gives_sequence_cons.mp h
    simp only [List.map_cons, List.nodup_cons] at hd
    refine (hstep x (by simp) js hj s).append fun u hu => ?_
    obtain ⟨hr, hu⟩ := hu
    rw [hhead x (by simp)] at hr
    have hdest : ∀ y ∈ xs, dest y ≠ dest x := fun y hy he => hd.1 (he ▸ List.mem_map_of_mem hy)
    have hfresh' : ∀ y ∈ xs, dest y ∉ dest x :: written :=
      fun y hy => by simpa [hdest y hy] using hfresh y (by simp [hy])
    have hs' : ∀ q, q ∉ dest x :: written → u.regs q = first.regs q := by
      intro q hq
      simp only [List.mem_cons, not_or] at hq
      rw [hu q hq.1, hs q hq.2]
    have hrest := ih (fun y hy => hstep y (by simp [hy]))
      (fun y hy => htail y (List.mem_of_mem_tail hy)) hd.2 hfresh' hk hs'
      (fun y hy => htail y (List.mem_of_mem_head? hy) u)
    refine hrest.imp fun t ht => ?_
    obtain ⟨⟨c', hv⟩, ho⟩ := ht
    -- What has been written before stays as it is, up to the end.
    have hsource : s.regs (source x) =
        if source x ∈ written then t.regs (source x) else first.regs (source x) := by
      split
      · next hw =>
        have hne : source x ≠ dest x := fun he => hfresh x (by simp) (he ▸ hw)
        have hlater : source x ∉ xs.map dest := by
          intro hm
          obtain ⟨y, hy, he⟩ := List.mem_map.mp hm
          exact hfresh y (by simp [hy]) (he ▸ hw)
        rw [ho _ hlater, hu _ hne]
      · next hw => exact hs _ hw
    refine ⟨⟨c', .cons ?_ hv⟩, ?_⟩
    · rw [hs _ (hfresh x (by simp)), hsource] at hr
      simpa [ho _ hd.1] using hr
    · intro q hq
      simp only [List.map_cons, List.mem_cons, not_or] at hq
      rw [ho q hq.2, hu q hq.1]

/-- The same for steps without a carry, each of which makes a byte of what is in its register and of
what it reads. -/
theorem ends_combine (dest source : α → Reg) (f : Byte → Byte → Byte) {F : α → Selection}
    (hstep : ∀ x ∈ xs, ∀ is, (F x).Gives is → ∀ s, Ends is s fun t =>
      t.regs (dest x) = f (s.regs (dest x)) (s.regs (source x)) ∧
        ∀ q, q ≠ dest x → t.regs q = s.regs q)
    (hd : (xs.map dest).Nodup) {is : List Instruction}
    (h : (Selection.sequence (xs.map F)).Gives is) (s : Cpu) :
    Ends is s fun t =>
      (∀ y ∈ readings dest source s t [] xs, t.regs (dest y.1) = f (s.regs (dest y.1)) y.2) ∧
        ∀ q, q ∉ xs.map dest → t.regs q = s.regs q := by
  have hfresh : ∀ x ∈ xs, dest x ∉ [] := by simp
  refine (ends_readings dest source (fun a b _ b' _ => b' = f a b) (fun _ t => t.status.carry) hstep
    (fun _ _ _ => rfl) hd hfresh h (fun _ _ => rfl) (fun _ _ => rfl)).imp ?_
  rintro t ⟨⟨c', hr⟩, ho⟩
  exact ⟨hr.writes, ho⟩

/-- Steps that follow each other come to the same as if all were done at once. -/
theorem combined_of_follows {f : Byte → Byte → Byte}
    (h : ∀ y ∈ readings dest source s t written xs, t.regs (dest y.1) = f (s.regs (dest y.1)) y.2)
    (hw : ∀ x ∈ xs, source x ∈ written →
      f (s.regs (dest x)) (t.regs (source x)) = f (s.regs (dest x)) (s.regs (source x)))
    (hp : xs.Pairwise (Follows dest source f s)) :
    ∀ x ∈ xs, t.regs (dest x) = f (s.regs (dest x)) (s.regs (source x)) := by
  induction xs generalizing written with
  | nil => simp
  | cons x xs ih =>
    obtain ⟨hx, hp⟩ := List.pairwise_cons.mp hp
    rw [readings, List.forall_mem_cons] at h
    have hdest : t.regs (dest x) = f (s.regs (dest x)) (s.regs (source x)) := by
      refine h.1.trans ?_
      dsimp only
      split
      · next hm => exact hw x (by simp) hm
      · rfl
    rw [List.forall_mem_cons]
    refine ⟨hdest, ih h.2 ?_ hp⟩
    intro y hy hm
    rcases List.mem_cons.mp hm with he | hm
    · rw [← hx y hy he, he, hdest]
    · exact hw y (by simp [hy]) hm

/-- A step that comes out right although it reads what another has written follows that one. -/
theorem follows_of_combined {f : Byte → Byte → Byte}
    (h : ∀ y ∈ readings dest source s t written xs, t.regs (dest y.1) = f (s.regs (dest y.1)) y.2)
    (hright : ∀ x ∈ xs, t.regs (dest x) = f (s.regs (dest x)) (s.regs (source x))) :
    xs.Pairwise (Follows dest source f s) := by
  induction xs generalizing written with
  | nil => exact .nil
  | cons x xs ih =>
    rw [readings, List.forall_mem_cons] at h
    rw [List.forall_mem_cons] at hright
    refine .cons (fun y hy he => ?_) (ih h.2 hright.2)
    have hread := h.2 _ (mem_readings_of_written hy (by simp [he]))
    rw [← hright.2 y hy, hread, he, hright.1]

/-- Steps without a carry are right in a state exactly if each follows all before it. -/
theorem combined_iff (f : Byte → Byte → Byte)
    (h : ∀ y ∈ readings dest source s t [] xs, t.regs (dest y.1) = f (s.regs (dest y.1)) y.2) :
    (∀ x ∈ xs, t.regs (dest x) = f (s.regs (dest x)) (s.regs (source x))) ↔
      xs.Pairwise (Follows dest source f s) :=
  ⟨follows_of_combined h, combined_of_follows h (by simp)⟩

end

end Avr.Cpu
