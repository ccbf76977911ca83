import Mathlib.Data.List.Sort

namespace Avr

/-- A sort inserts one element after the other. Unlike the sort itself, this can be evaluated by the
kernel. -/
theorem mergeSort_eq_foldr {le : α → α → Bool} (htrans : ∀ a b c, le a b → le b c → le a c)
    (htotal : ∀ a b, le a b || le b a) (xs : List α) :
    xs.mergeSort le = xs.foldr (List.orderedInsert (le · ·)) [] := by
  induction xs with
  | nil => simp
  | cons a xs ih =>
    obtain ⟨before, after, hcons, htail, hbefore⟩ := List.mergeSort_cons htrans htotal a xs
    have hsorted := List.pairwise_mergeSort htrans htotal (a :: xs)
    rw [hcons] at hsorted
    have hafter : ∀ b ∈ after, le a b :=
      (List.pairwise_cons.mp (List.pairwise_append.mp hsorted).2.1).1
    rw [hcons, List.foldr_cons, ← ih, htail]
    clear hcons htail ih hsorted
    induction before with
    | nil =>
      cases after with
      | nil => rfl
      | cons b after => simp [hafter b (by simp)]
    | cons b before ih =>
      have hb : ¬ le a b := by simpa using hbefore b (by simp)
      simp [hb, ih fun c hc => hbefore c (by simp [hc])]

section

variable (key : α → Nat)

theorem key_trans (a b c : α) (hab : decide (key a ≤ key b)) (hbc : decide (key b ≤ key c)) :
    decide (key a ≤ key c) := by
  simp only [decide_eq_true_eq] at *
  omega

theorem key_total (a b : α) : decide (key a ≤ key b) || decide (key b ≤ key a) := by
  simp only [Bool.or_eq_true, decide_eq_true_eq]
  omega

theorem pairwise_mergeSort_key (xs : List α) :
    (xs.mergeSort fun a b => key a ≤ key b).Pairwise fun a b => key a ≤ key b := by
  have h := List.pairwise_mergeSort (key_trans key) (key_total key) xs
  simpa only [decide_eq_true_eq] using h

end

end Avr
