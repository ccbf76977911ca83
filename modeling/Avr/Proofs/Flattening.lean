import Avr.Proofs.Folding
import Avr.Proofs.Simplification

namespace Avr.Value

/-- The value of a tree, where `leaf` is the value of every node that is no binary operator. -/
def worth (leaf : Value → Option Int32) : Value → Option Int32
  | binary op a b => do op.apply (← a.worth leaf) (← b.worth leaf)
  | v => leaf v

/-- What one step of a chain makes of the value so far. -/
def stepWorth (leaf : Value → Option Int32) (acc : Int32) (s : ArithOp × Value) : Option Int32 := do
  s.1.apply acc (← s.2.worth leaf)

/-- The base, and then one step after the other. -/
def Chain.worth (leaf : Value → Option Int32) (c : Chain) : Option Int32 := do
  c.steps.foldlM (stepWorth leaf) (← c.base.worth leaf)

/-- What a term adds to a sum. -/
def termWorth (leaf : Value → Option Int32) (t : Bool × Value) : Option Int32 :=
  (t.2.worth leaf).map (offset t.1)

/-- The operators on the left edge of a tree, from the root down. -/
def leftOperators : Value → List BinaryOp
  | binary op a _ => op :: a.leftOperators
  | _ => []

/-- Constants and signs are leaves here, and have the value that they have in a tree. -/
theorem worth_meaning (leaf : Value → Int32) (v : Value) :
    v.worth (meaning leaf) = v.meaning leaf := by
  induction v with
  | binary op a b iha ihb => simp only [worth, meaning, iha, ihb]
  | _ => rfl

variable (leaf : Value → Option Int32)

theorem worth_spine (v : Value) : v.spine.worth leaf = v.worth leaf := by
  induction v with
  | binary op a b iha _ =>
    cases op with
    | arith op =>
      have hsnoc : (binary (.arith op) a b).spine.worth leaf =
          (a.spine.worth leaf).bind fun acc => stepWorth leaf acc (op, b) := by
        cases hbase : a.spine.base.worth leaf with
        | none => simp [Chain.worth, spine, hbase]
        | some k => simp [Chain.worth, spine, hbase, List.foldlM_append]
      rw [hsnoc, iha]
      rfl
    | _ => simp [Chain.worth, spine]
  | _ => simp [Chain.worth, spine]

/-- A sum does not depend on which of its first two terms comes first. -/
theorem worth_swap (x y : Value) (steps : List (ArithOp × Value)) :
    Chain.worth leaf ⟨x, (.add, y) :: steps⟩ = Chain.worth leaf ⟨y, (.add, x) :: steps⟩ := by
  cases hx : x.worth leaf <;> cases hy : y.worth leaf <;>
    simp [Chain.worth, stepWorth, ArithOp.apply, hx, hy, Int32.add_comm]

theorem worth_linearize (v : Value) : v.linearize.worth leaf = v.worth leaf := by
  rw [← worth_spine]
  unfold linearize
  split
  · next k x rest h => rw [h, worth_swap]
  · rfl

/-- Flattening takes the operators off the left edge as long as they are arithmetic. -/
theorem spine_operators (v : Value) :
    v.spine.steps.reverse.map (fun s => BinaryOp.arith s.1) =
      v.leftOperators.takeWhile (·.update.isSome) := by
  induction v with
  | binary op a b iha _ =>
    cases op with
    | arith op => simpa [spine, leftOperators, BinaryOp.update] using iha
    | _ => simp [spine, leftOperators, BinaryOp.update]
  | _ => simp [spine, leftOperators]

theorem linearize_operators (v : Value) :
    v.linearize.steps.reverse.map (fun s => BinaryOp.arith s.1) =
      v.leftOperators.takeWhile (·.update.isSome) := by
  rw [← spine_operators]
  unfold linearize
  split
  · next k x rest h => simp [h]
  · rfl

/-- What is left under the arithmetic operators of the left edge. -/
theorem leftOperators_spine (v : Value) :
    v.leftOperators =
      v.leftOperators.takeWhile (·.update.isSome) ++ v.spine.base.leftOperators := by
  induction v with
  | binary op a b iha _ =>
    cases op with
    | arith op => simpa [spine, leftOperators, BinaryOp.update] using iha
    | _ => simp [spine, leftOperators, BinaryOp.update]
  | _ => simp [spine, leftOperators]

theorem stepWorth_eq {s : ArithOp × Value} {t : Bool × Value} (h : signedTerm? s = some t)
    (acc : Int32) : stepWorth leaf acc s = (termWorth leaf t).map (acc + ·) := by
  unfold signedTerm? at h
  split at h
  · cases h
    next v => cases hv : v.worth leaf <;> simp [stepWorth, termWorth, ArithOp.apply, offset, hv]
  · cases h
    next v =>
      cases hv : v.worth leaf <;>
        simp [stepWorth, termWorth, ArithOp.apply, offset, hv, Int32.sub_eq_add_neg]
  · cases h

/-- Steps that only add and subtract add up. -/
theorem steps_worth {steps : List (ArithOp × Value)} {ts : List (Bool × Value)}
    (h : steps.mapM signedTerm? = some ts) (acc : Int32) :
    steps.foldlM (stepWorth leaf) acc = (ts.mapM (termWorth leaf)).map (acc + ·.sum) := by
  induction steps generalizing ts acc with
  | nil =>
    cases h
    simp
  | cons s steps ih =>
    simp only [List.mapM_cons, Option.bind_eq_bind, Option.bind_eq_some_iff, Option.pure_def,
      Option.some.injEq] at h
    obtain ⟨t, ht, us, hus, rfl⟩ := h
    rw [List.foldlM_cons, stepWorth_eq leaf ht]
    cases hworth : termWorth leaf t with
    | none => simp [hworth]
    | some k =>
      cases hrest : us.mapM (termWorth leaf) <;> simp [hworth, hrest, ih hus, Int32.add_assoc]

/-- A sum is what its terms add up to. -/
theorem terms_worth {v : Value} {ts : List (Bool × Value)} (h : v.terms? = some ts) :
    (ts.mapM (termWorth leaf)).map List.sum = v.worth leaf := by
  unfold terms? at h
  split at h
  · cases h
  · obtain ⟨us, hus, rfl⟩ := Option.map_eq_some_iff.mp h
    rw [← worth_linearize, Chain.worth]
    cases hbase : v.linearize.base.worth leaf with
    | none => simp [termWorth, hbase]
    | some k =>
      cases hrest : us.mapM (termWorth leaf) <;>
        simp [termWorth, hbase, offset, steps_worth leaf hus, hrest]

/-- If there are terms, then nothing but sums and differences stands on the left edge. -/
theorem terms_operators {v : Value} {ts : List (Bool × Value)} (h : v.terms? = some ts) :
    ∀ op ∈ v.leftOperators, op = .arith .add ∨ op = .arith .sub := by
  have hbase : v.spine.base.leftOperators = [] := by
    have hb : ¬ v.linearize.base.isBinary := by
      intro hb
      simp [terms?, hb] at h
    unfold linearize at hb
    split at hb
    · next hs => simp [hs, leftOperators]
    · cases hs : v.spine.base <;> first | rfl | simp [hs, isBinary] at hb
  intro op hop
  rw [leftOperators_spine, hbase, List.append_nil, ← linearize_operators] at hop
  obtain ⟨s, hs, rfl⟩ := List.mem_map.mp hop
  rcases (terms_spec h).1 s (List.mem_reverse.mp hs) with hadd | hsub
  · exact .inl (congrArg _ hadd)
  · exact .inr (congrArg _ hsub)

/-- What an assignment computes step by step has the value of the tree it was made from. -/
theorem worth_linearize_simplify (leaf : Value → Int32) (v : Value) :
    v.simplify.linearize.worth (meaning leaf) = v.meaning leaf := by
  rw [worth_linearize, worth_meaning]
  exact (simplifies_simplify v).meaning_eq leaf

/-- A tree, the chain that it is flattened to and the terms of a sum all have one value, also where
the tree is folded first. The chain takes all arithmetic operators off the left edge, and a sum has
no others there. -/
theorem flattening_keeps_value (v : Value) :
    v.linearize.worth leaf = v.worth leaf ∧
      v.linearize.steps.reverse.map (fun s => BinaryOp.arith s.1) =
        v.leftOperators.takeWhile (·.update.isSome) ∧
      (∀ ts, v.terms? = some ts →
        (ts.mapM (termWorth leaf)).map List.sum = v.worth leaf ∧
          ∀ op ∈ v.leftOperators, op = .arith .add ∨ op = .arith .sub) ∧
      ∀ value : Value → Int32, v.simplify.linearize.worth (meaning value) = v.meaning value :=
  ⟨worth_linearize leaf v, linearize_operators v,
    fun _ h => ⟨terms_worth leaf h, terms_operators h⟩, fun value => worth_linearize_simplify value v⟩

namespace FlatSample

/-- `1 + r20 - r21 * 2`, where the constant gives way to `r20` and the product stays a tree. -/
def tree : Value :=
  binary (.arith .sub) (binary (.arith .add) (const 1) (reg ⟨20⟩))
    (binary (.arith .mul) (reg ⟨21⟩) (const 2))

def registers : Value → Option Int32
  | const k => some k
  | reg r => some (Int32.ofNat r.number)
  | _ => none

end FlatSample

open FlatSample in
/-- `20 + 1 - 42` whichever way it is added up. -/
theorem flattening_keeps_value_swapped :
    tree.terms? = some [(false, reg ⟨20⟩), (false, const 1),
        (true, binary (.arith .mul) (reg ⟨21⟩) (const 2))] ∧
      tree.linearize.worth registers = some (-21) ∧
      ([(false, reg ⟨20⟩), (false, const 1), (true, binary (.arith .mul) (reg ⟨21⟩) (const 2))].mapM
        (termWorth registers)).map List.sum = some (-21) := by
  have hterms : tree.terms? = some [(false, reg ⟨20⟩), (false, const 1),
      (true, binary (.arith .mul) (reg ⟨21⟩) (const 2))] := rfl
  have hvalue : tree.worth registers = some (-21) := by decide
  obtain ⟨hchain, -, hsum, -⟩ := flattening_keeps_value registers tree
  exact ⟨hterms, hchain.trans hvalue, (hsum _ hterms).1.trans hvalue⟩

end Avr.Value
