import Avr.Proofs.Folding
import Mathlib.Logic.Relation

namespace Avr.Value

open Relation

/-- An operation on constants that has a result is that result. -/
def foldConstants? : Value → Option Value
  | binary op (const a) (const b) => (op.apply a b).map const
  | _ => none

/-- `(x ± a) ± b` is `x + c`. -/
def mergeOffsets? (v : Value) : Option Value := do
  let (outer, inner, b) ← v.displaced?
  let (minus, x, a) ← inner.displaced?
  return sum false x (offset minus a + offset outer b)

/-- `x ± 0` is `x`. -/
def dropZero? (v : Value) : Option Value := do
  let (_, x, k) ← v.displaced?
  if k = 0 then some x else none

/-- `x + -c` is `x - c`, and `x - -c` is `x + c`, where `c` has a word of its own. -/
def flipNegative? (v : Value) : Option Value := do
  let (minus, x, k) ← v.displaced?
  if k < 0 ∧ k ≠ Int32.minValue then some (sum (!minus) x (-k)) else none

/-- The first rule that applies to the node. -/
def rewrite? (v : Value) : Option Value :=
  v.foldConstants? <|> v.mergeOffsets? <|> v.dropZero? <|> v.flipNegative?

def Step (v w : Value) : Prop := v.rewrite? = some w

/-- The rules lead there, and no further. -/
def Rewrites (v w : Value) : Prop := ReflTransGen Step v w ∧ w.rewrite? = none

/-- From the leaves up, the rules are applied until none does. -/
inductive Simplifies : Value → Value → Prop
  | binary {op : BinaryOp} {a b a' b' v : Value} (left : Simplifies a a') (right : Simplifies b b')
      (root : Rewrites (.binary op a' b') v) : Simplifies (.binary op a b) v
  | signed {v v' w : Value} (inner : Simplifies v v') (root : Rewrites (.signed v') w) :
      Simplifies (.signed v) w
  | leaf {v w : Value} (hb : ¬ v.isBinary) (hs : ∀ u, v ≠ .signed u) (root : Rewrites v w) :
      Simplifies v w

/-- No rule applies anywhere in the tree. -/
def Exhausted : Value → Prop
  | binary op a b => a.Exhausted ∧ b.Exhausted ∧ (binary op a b).rewrite? = none
  | signed v => v.Exhausted
  | _ => True

/-- The value of a tree, given the value of all that is neither a constant nor an operator. -/
def meaning (leaf : Value → Int32) : Value → Option Int32
  | const k => some k
  | binary op a b => do op.apply (← a.meaning leaf) (← b.meaning leaf)
  | signed v => v.meaning leaf
  | v => some (leaf v)

theorem displaced_sum (minus : Bool) (v : Value) (k : Int32) :
    (sum minus v k).displaced? = some (minus, v, k) := by
  cases minus <;> rfl

theorem displaced_iff {v w : Value} {minus : Bool} {k : Int32} :
    v.displaced? = some (minus, w, k) ↔ v = sum minus w k := by
  constructor
  · exact displaced_some
  · rintro rfl
    exact displaced_sum minus w k

theorem mergeOffsets_some {v w : Value} :
    v.mergeOffsets? = some w ↔ ∃ outer b minus x a,
      v = sum outer (sum minus x a) b ∧ w = sum false x (offset minus a + offset outer b) := by
  simp only [mergeOffsets?, Option.bind_eq_bind, Option.bind_eq_some_iff, Prod.exists,
    displaced_iff, Option.pure_def, Option.some.injEq]
  constructor
  · rintro ⟨outer, _, b, rfl, minus, x, a, rfl, rfl⟩
    exact ⟨outer, b, minus, x, a, rfl, rfl⟩
  · rintro ⟨outer, b, minus, x, a, rfl, rfl⟩
    exact ⟨outer, _, b, rfl, minus, x, a, rfl, rfl⟩

theorem dropZero_some {v w : Value} : v.dropZero? = some w ↔ ∃ minus, v = sum minus w 0 := by
  simp only [dropZero?, Option.bind_eq_bind, Option.bind_eq_some_iff, Prod.exists, displaced_iff,
    Option.ite_none_right_eq_some, Option.some.injEq]
  constructor
  · rintro ⟨minus, _, _, rfl, rfl, rfl⟩
    exact ⟨minus, rfl⟩
  · rintro ⟨minus, rfl⟩
    exact ⟨minus, w, 0, rfl, rfl, rfl⟩

theorem flipNegative_some {v w : Value} :
    v.flipNegative? = some w ↔ ∃ minus x k,
      v = sum minus x k ∧ (k < 0 ∧ k ≠ Int32.minValue) ∧ w = sum (!minus) x (-k) := by
  simp only [flipNegative?, Option.bind_eq_bind, Option.bind_eq_some_iff, Prod.exists,
    displaced_iff, Option.ite_none_right_eq_some, Option.some.injEq]
  constructor
  · rintro ⟨minus, x, k, rfl, hk, rfl⟩
    exact ⟨minus, x, k, rfl, hk, rfl⟩
  · rintro ⟨minus, x, k, rfl, hk, rfl⟩
    exact ⟨minus, x, k, rfl, hk, rfl⟩

theorem foldConstants_some {v w : Value} :
    v.foldConstants? = some w ↔ ∃ op a b k,
      v = binary op (const a) (const b) ∧ op.apply a b = some k ∧ w = const k := by
  constructor
  · intro h
    unfold foldConstants? at h
    split at h
    · next op a b =>
      obtain ⟨k, hk, rfl⟩ := Option.map_eq_some_iff.mp h
      exact ⟨op, a, b, k, rfl, hk, rfl⟩
    · cases h
  · rintro ⟨op, a, b, k, rfl, hk, rfl⟩
    simp [foldConstants?, hk]

/-- What one step can do. -/
theorem Step.cases {v w : Value} (h : v.Step w) :
    (∃ op a b k, v = binary op (const a) (const b) ∧ op.apply a b = some k ∧ w = const k) ∨
    (∃ outer b minus x a,
      v = sum outer (sum minus x a) b ∧ w = sum false x (offset minus a + offset outer b)) ∨
    (∃ minus, v = sum minus w 0) ∨
    ∃ minus x k, v = sum minus x k ∧ (k < 0 ∧ k ≠ Int32.minValue) ∧ w = sum (!minus) x (-k) := by
  simp only [Step, rewrite?, Option.orElse_eq_orElse, Option.orElse_eq_or, Option.or_eq_some_iff]
    at h
  rcases h with h | ⟨-, h | ⟨-, h | ⟨-, h⟩⟩⟩
  · exact .inl (foldConstants_some.mp h)
  · exact .inr (.inl (mergeOffsets_some.mp h))
  · exact .inr (.inr (.inl (dropZero_some.mp h)))
  · exact .inr (.inr (.inr (flipNegative_some.mp h)))

/-- Twice the weight, and one more if a sign is left to flip. -/
def effort (v : Value) : Nat := 2 * v.weight + if v.flipNegative?.isSome then 1 else 0

theorem weight_sum (minus : Bool) (v : Value) (k : Int32) : (sum minus v k).weight = v.weight + 1 :=
  rfl

/-- A sign is flipped once. -/
theorem flipNegative_sum_neg {k : Int32} (hk : k < 0 ∧ k ≠ Int32.minValue) (minus : Bool)
    (v : Value) : (sum minus v (-k)).flipNegative? = none := by
  rw [Option.eq_none_iff_forall_ne_some]
  intro w hw
  obtain ⟨_, _, _, heq, hneg, -⟩ := flipNegative_some.mp hw
  have hdisplaced := displaced_sum minus v (-k)
  rw [heq, displaced_sum] at hdisplaced
  cases hdisplaced
  grind

theorem Step.effort_lt {v w : Value} (h : v.Step w) : w.effort < v.effort := by
  have hflag (u : Value) : (if u.flipNegative?.isSome then 1 else 0) ≤ 1 := by split <;> omega
  obtain ⟨op, a, b, k, rfl, -, rfl⟩ | ⟨outer, b, minus, x, a, rfl, rfl⟩ | ⟨minus, rfl⟩ |
    ⟨minus, x, k, rfl, hk, rfl⟩ := h.cases
  · have hconst : (const k).flipNegative? = none := rfl
    simp [effort, hconst]
  · have := hflag (sum false x (offset minus a + offset outer b))
    simp only [effort, weight_sum] at this ⊢
    omega
  · have := hflag w
    simp only [effort, weight_sum] at this ⊢
    omega
  · have hflip := flipNegative_some.mpr ⟨minus, x, k, rfl, hk, rfl⟩
    simp [effort, weight_sum, hflip, flipNegative_sum_neg hk]

/-- The rules cannot be applied for ever. -/
theorem wellFounded_step : WellFounded fun w v : Value => v.Step w :=
  Subrelation.wf (fun h => h.effort_lt) (measure effort).wf

section

variable (leaf : Value → Int32)

theorem meaning_sum (minus : Bool) (v : Value) (k : Int32) :
    (sum minus v k).meaning leaf = (v.meaning leaf).map (· + offset minus k) := by
  cases minus <;> cases hv : v.meaning leaf <;>
    simp [sum, meaning, hv, BinaryOp.apply, ArithOp.apply, offset, Int32.sub_eq_add_neg]

/-- No rule changes the value, whether there is one or not. -/
theorem Step.meaning_eq {v w : Value} (h : v.Step w) : w.meaning leaf = v.meaning leaf := by
  obtain ⟨op, a, b, k, rfl, hk, rfl⟩ | ⟨outer, b, minus, x, a, rfl, rfl⟩ | ⟨minus, rfl⟩ |
    ⟨minus, x, k, rfl, -, rfl⟩ := h.cases
  · simp [meaning, hk]
  · simp only [meaning_sum, Option.map_map]
    congr 1
    funext y
    simp [offset, Int32.add_assoc]
  · have hzero : offset minus 0 = 0 := by cases minus <;> rfl
    simp [meaning_sum, hzero]
  · have hflip : offset (!minus) (-k) = offset minus k := by cases minus <;> simp [offset]
    rw [meaning_sum, meaning_sum, hflip]

theorem Rewrites.meaning_eq {v w : Value} (h : v.Rewrites w) :
    w.meaning leaf = v.meaning leaf := by
  obtain ⟨hsteps, -⟩ := h
  induction hsteps with
  | refl => rfl
  | tail _ hstep ih => exact (hstep.meaning_eq leaf).trans ih

theorem Simplifies.meaning_eq {v w : Value} (h : v.Simplifies w) :
    w.meaning leaf = v.meaning leaf := by
  induction h with
  | binary _ _ hroot iha ihb =>
    rw [hroot.meaning_eq leaf]
    simp only [meaning, iha, ihb]
  | signed _ hroot ih =>
    rw [hroot.meaning_eq leaf]
    exact ih
  | leaf _ _ hroot => exact hroot.meaning_eq leaf

end

/-- There is only one way to go, so there is only one end. -/
theorem Rewrites.unique {v w u : Value} (hw : v.Rewrites w) (hu : v.Rewrites u) : w = u := by
  obtain ⟨hsteps, hend⟩ := hw
  obtain ⟨hsteps', hend'⟩ := hu
  induction hsteps using ReflTransGen.head_induction_on with
  | refl =>
    rcases hsteps'.cases_head with rfl | ⟨x, hx, -⟩
    · rfl
    · rw [Step, hend] at hx
      cases hx
  | head hstep _ ih =>
    rcases hsteps'.cases_head with rfl | ⟨x, hx, hrest⟩
    · rw [Step, hend'] at hstep
      cases hstep
    · obtain rfl := Option.some.inj (hstep.symm.trans hx)
      exact ih hrest

theorem Rewrites.of_none {v : Value} (h : v.rewrite? = none) : v.Rewrites v := ⟨.refl, h⟩

theorem Rewrites.head {v w u : Value} (h : v.rewrite? = some w) (hu : w.Rewrites u) :
    v.Rewrites u :=
  ⟨.head h hu.1, hu.2⟩

/-- The rules on sums need a sum. -/
theorem rewrite_of_displaced_none {v : Value} (h : v.displaced? = none) :
    v.rewrite? = v.foldConstants? := by
  simp [rewrite?, mergeOffsets?, dropZero?, flipNegative?, h]

theorem foldConstants_of_not_isConst {op : BinaryOp} {a b : Value}
    (h : ¬ (a.isConst ∧ b.isConst)) : (binary op a b).foldConstants? = none := by
  unfold foldConstants?
  split
  · next heq =>
    cases heq
    exact (h ⟨rfl, rfl⟩).elim
  · rfl

/-- What the rules make of a sum whose constant stands alone. -/
theorem rewrite_sum {w : Value} (hc : ¬ w.isConst) (hd : w.displaced? = none) (minus : Bool)
    (k : Int32) :
    (sum minus w k).rewrite? =
      if k = 0 then some w
      else if k < 0 ∧ k ≠ Int32.minValue then some (sum (!minus) w (-k)) else none := by
  have hfold : (sum minus w k).foldConstants? = none :=
    foldConstants_of_not_isConst fun h => hc h.1
  have hmerge : (sum minus w k).mergeOffsets? = none := by
    simp [mergeOffsets?, displaced_sum, hd]
  by_cases hk : k = 0
  · subst hk
    simp [rewrite?, hfold, hmerge, dropZero?, displaced_sum]
  · simp [rewrite?, hfold, hmerge, dropZero?, flipNegative?, displaced_sum, hk]

theorem rewrites_displace {w : Value} (hc : ¬ w.isConst) (hd : w.displaced? = none)
    (hw : w.rewrite? = none) (minus : Bool) (k : Int32) :
    (sum minus w k).Rewrites (displace minus w k) := by
  have hrule := rewrite_sum hc hd minus k
  unfold displace
  split
  · next hk =>
    rw [if_pos hk] at hrule
    exact .head hrule (.of_none hw)
  · next hk =>
    rw [if_neg hk] at hrule
    split
    · next hneg =>
      rw [if_pos hneg] at hrule
      refine .head hrule (.of_none ?_)
      rw [rewrite_sum hc hd, if_neg (by simpa using hk), if_neg (by grind)]
    · next hneg =>
      rw [if_neg hneg] at hrule
      exact .of_none hrule

theorem sum_ne_self (minus : Bool) (v : Value) (k : Int32) : sum minus v k ≠ v := by
  intro h
  have hweight := weight_sum minus v k
  rw [h] at hweight
  omega

/-- Nothing is left to do in a folded sum. -/
theorem Folded.rewrite_sum {minus : Bool} {w : Value} {k : Int32} (h : (sum minus w k).Folded) :
    (sum minus w k).rewrite? = none := by
  obtain ⟨-, hc, hd⟩ := h.displaced (displaced_sum minus w k)
  have hfold : displace minus w k = sum minus w k := by
    have hcombine := h.2.2
    rwa [combine_sum hc, addConst, hd] at hcombine
  rw [Value.rewrite_sum hc hd]
  unfold displace at hfold
  split at hfold
  · exact (sum_ne_self minus w k hfold.symm).elim
  · next hk =>
    rw [if_neg hk]
    split at hfold
    · have hflip := congrArg displaced? hfold
      simp [displaced_sum] at hflip
    · next hneg => exact if_neg hneg

theorem Folded.rewrite_eq_none {v : Value} (h : v.Folded) : v.rewrite? = none := by
  cases hd : v.displaced? with
  | some d =>
    obtain ⟨minus, w, k⟩ := d
    obtain rfl := displaced_iff.mp hd
    exact h.rewrite_sum
  | none =>
    rw [rewrite_of_displaced_none hd, Option.eq_none_iff_forall_ne_some]
    intro w hw
    obtain ⟨op, a, b, k, rfl, hk, rfl⟩ := foldConstants_some.mp hw
    have hcombine := h.2.2
    simp [combine, hk] at hcombine

/-- Rebuilding a node is what the rules do to it, once its operands are folded. -/
theorem rewrites_combine {op : BinaryOp} {a b : Value} (ha : a.Folded) (hb : b.Folded) :
    (binary op a b).Rewrites (combine op a b) := by
  by_cases hsame : combine op a b = binary op a b
  · have hfolded : (binary op a b).Folded := ⟨ha, hb, hsame⟩
    rw [hsame]
    exact .of_none hfolded.rewrite_eq_none
  · -- A node that is not rebuilt as it was has a constant on its right.
    have hsum (minus : Bool) (k : Int32) (hc : ¬ a.isConst) :
        (sum minus a k).Rewrites (addConst minus a k) := by
      unfold addConst
      split
      · next inner x j hd =>
        obtain rfl := displaced_iff.mp hd
        obtain ⟨hx, hcx, hdx⟩ := ha.displaced hd
        have hmerge := mergeOffsets_some.mpr ⟨minus, k, inner, x, j, rfl, rfl⟩
        have hfold : (sum minus (sum inner x j) k).foldConstants? = none :=
          foldConstants_of_not_isConst fun h => hc h.1
        have hrule : (sum minus (sum inner x j) k).rewrite? =
            some (sum false x (offset inner j + offset minus k)) := by
          simp [rewrite?, hfold, hmerge]
        exact .head hrule (rewrites_displace hcx hdx hx.rewrite_eq_none _ _)
      · next hd => exact rewrites_displace hc hd ha.rewrite_eq_none _ _
    unfold combine at hsame ⊢
    split
    · next x y =>
      split
      · next k hk =>
        have hfold := foldConstants_some.mpr ⟨op, x, y, k, rfl, hk, rfl⟩
        exact .head (by simp [rewrite?, hfold]) (.of_none rfl)
      · simp_all
    · next hconst =>
      have hc : ¬ a.isConst := not_isConst hconst
      split
      · exact hsum false _ hc
      · exact hsum true _ hc
      · simp_all
    · simp_all

theorem simplifies_simplify (v : Value) : v.Simplifies v.simplify := by
  induction v with
  | binary op a b iha ihb =>
    exact .binary iha ihb (rewrites_combine (folded_simplify a) (folded_simplify b))
  | signed v ih => exact .signed ih (.of_none rfl)
  | _ => exact .leaf (by simp [isBinary]) (by simp) (.of_none rfl)

theorem Simplifies.unique {v w u : Value} (hw : v.Simplifies w) (hu : v.Simplifies u) : w = u := by
  induction hw generalizing u with
  | binary _ _ hroot iha ihb =>
    cases hu with
    | binary ha hb hroot' =>
      obtain rfl := iha ha
      obtain rfl := ihb hb
      exact hroot.unique hroot'
    | leaf hb => exact (hb rfl).elim
  | signed _ hroot ih =>
    cases hu with
    | signed hv hroot' =>
      obtain rfl := ih hv
      exact hroot.unique hroot'
    | leaf _ hs => exact (hs _ rfl).elim
  | leaf hb hs hroot =>
    cases hu with
    | binary => exact (hb rfl).elim
    | signed => exact (hs _ rfl).elim
    | leaf _ _ hroot' => exact hroot.unique hroot'

theorem Folded.exhausted {v : Value} (h : v.Folded) : v.Exhausted := by
  induction v with
  | binary op a b iha ihb => exact ⟨iha h.1, ihb h.2.1, h.rewrite_eq_none⟩
  | signed v ih => exact ih h
  | _ => trivial

/-- The rules come to an end wherever they are applied. Applied to a tree from its leaves up they
leave just one tree, the folded one: it has a value just if the tree has, and the same one, whatever
its leaves stand for; no rule applies in it; and folding it again changes nothing. -/
theorem simplify_keeps_value (v : Value) :
    WellFounded (fun w v : Value => v.Step w) ∧
      (∀ w, v.Simplifies w ↔ w = v.simplify) ∧
      (∀ leaf : Value → Int32, v.simplify.meaning leaf = v.meaning leaf) ∧
      v.simplify.Exhausted ∧ v.simplify.simplify = v.simplify := by
  have hv := simplifies_simplify v
  refine ⟨wellFounded_step, ?_, fun leaf => hv.meaning_eq leaf, (folded_simplify v).exhausted,
    (folded_simplify v).simplify_eq⟩
  intro w
  constructor
  · exact fun hw => hw.unique hv
  · rintro rfl
    exact hv

/-- The least word keeps its operator, though merging offsets may bring it about. -/
example (r : Reg) :
    (sum true (sum true (reg r) 0x40000000) 0x40000000).simplify =
      sum false (reg r) Int32.minValue := by
  rfl

end Avr.Value
