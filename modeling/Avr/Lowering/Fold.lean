import Avr.Lowering.Value

namespace Avr.Value

/-- What adding or subtracting the constant adds. -/
def offset (subtract : Bool) (k : Int32) : Int32 := if subtract then -k else k

def sum (subtract : Bool) (v : Value) (k : Int32) : Value :=
  binary (.arith (if subtract then .sub else .add)) v (const k)

/-- The value and a constant in their shortest form. The least word has no positive counterpart and
keeps its operator. -/
def displace (subtract : Bool) (v : Value) (k : Int32) : Value :=
  if k = 0 then v
  else if k < 0 ∧ k ≠ Int32.minValue then sum (!subtract) v (-k)
  else sum subtract v k

/-- The parts of `v + k` or `v - k`. -/
def displaced? : Value → Option (Bool × Value × Int32)
  | binary (.arith .add) v (const k) => some (false, v, k)
  | binary (.arith .sub) v (const k) => some (true, v, k)
  | _ => none

/-- Constants added one after the other are added at once. -/
def addConst (subtract : Bool) (v : Value) (k : Int32) : Value :=
  match v.displaced? with
  | some (inner, v, j) => displace false v (offset inner j + offset subtract k)
  | none => displace subtract v k

def combine (op : BinaryOp) (left right : Value) : Value :=
  match left, right with
  | const a, const b =>
    match op.apply a b with
    | some k => const k
    | none => binary op left right
  | v, const k =>
    match op with
    | .arith .add => addConst false v k
    | .arith .sub => addConst true v k
    | _ => binary op left right
  | _, _ => binary op left right

def simplify : Value → Value
  | binary op a b => combine op a.simplify b.simplify
  | signed v => signed v.simplify
  | v => v

/-- `base op₁ x₁ op₂ x₂ …`, to be computed from left to right. -/
structure Chain where
  base : Value
  steps : List (ArithOp × Value)

/-- The left spine of a tree, down to the first node that is no arithmetic. -/
def spine : Value → Chain
  | binary (.arith op) a b =>
    let chain := a.spine
    ⟨chain.base, chain.steps ++ [(op, b)]⟩
  | v => ⟨v, []⟩

/-- A sum that starts with a constant starts with its second term instead. -/
def linearize (v : Value) : Chain :=
  match v.spine with
  | ⟨const k, (.add, x) :: rest⟩ => ⟨x, (.add, const k) :: rest⟩
  | chain => chain

/-- A step of a sum: whether it subtracts, and what. -/
def signedTerm? : ArithOp × Value → Option (Bool × Value)
  | (.add, v) => some (false, v)
  | (.sub, v) => some (true, v)
  | _ => none

/-- The terms of a sum, each with whether it is subtracted. -/
def terms? (v : Value) : Option (List (Bool × Value)) :=
  if v.linearize.base.isBinary then none
  else (v.linearize.steps.mapM signedTerm?).map ((false, v.linearize.base) :: ·)

/-- Nodes of the tree, as far as folding and flattening go into it. -/
def weight : Value → Nat
  | binary _ a b | assign _ a b => a.weight + b.weight + 1
  | unary _ v | suffix _ v | signed v => v.weight + 1
  | _ => 0

@[simp] theorem weight_const (k : Int32) : (const k).weight = 0 := rfl

@[simp] theorem weight_binary (op : BinaryOp) (a b : Value) :
    (binary op a b).weight = a.weight + b.weight + 1 := rfl

@[simp] theorem weight_unary (op : UnaryOp) (v : Value) : (unary op v).weight = v.weight + 1 := rfl

@[simp] theorem weight_suffix (op : StepOp) (v : Value) : (suffix op v).weight = v.weight + 1 := rfl

@[simp] theorem weight_signed (v : Value) : (signed v).weight = v.weight + 1 := rfl

theorem weight_displace_le (s : Bool) (v : Value) (k : Int32) :
    (displace s v k).weight ≤ v.weight + 1 := by
  unfold displace sum
  split
  · omega
  · split <;> simp

theorem weight_of_displaced? {v w : Value} {s : Bool} {k : Int32}
    (h : v.displaced? = some (s, w, k)) : v.weight = w.weight + 1 := by
  unfold displaced? at h
  split at h <;> simp_all

theorem weight_addConst_le (s : Bool) (v : Value) (k : Int32) :
    (addConst s v k).weight ≤ v.weight + 1 := by
  unfold addConst
  split
  · next h => have := weight_of_displaced? h; have := weight_displace_le; grind
  · exact weight_displace_le _ _ _

theorem weight_combine_le (op : BinaryOp) (a b : Value) :
    (combine op a b).weight ≤ a.weight + b.weight + 1 := by
  unfold combine
  split
  · split <;> simp
  · split <;> first | exact weight_addConst_le _ _ _ | simp
  · simp

theorem weight_simplify_le (v : Value) : v.simplify.weight ≤ v.weight := by
  induction v with
  | binary op a b iha ihb =>
    have := weight_combine_le op a.simplify b.simplify
    simp only [simplify, weight_binary]
    omega
  | signed v ih => simpa [simplify] using ih
  | _ => simp [simplify]

theorem exists_of_mem_mapM {f : α → Option β} {xs : List α} {ys : List β}
    (h : xs.mapM f = some ys) {y : β} (hy : y ∈ ys) : ∃ x ∈ xs, f x = some y := by
  induction xs generalizing ys with
  | nil => simp at h; simp [h] at hy
  | cons x xs ih =>
    simp only [List.mapM_cons, Option.bind_eq_bind, Option.bind_eq_some_iff, Option.pure_def,
      Option.some.injEq] at h
    obtain ⟨z, hz, zs, hzs, rfl⟩ := h
    rcases List.mem_cons.1 hy with rfl | hy
    · exact ⟨x, by simp, hz⟩
    · obtain ⟨w, hw, he⟩ := ih hzs hy
      exact ⟨w, by simp [hw], he⟩

theorem weight_spine (v : Value) :
    v.spine.base.weight ≤ v.weight ∧ ∀ s ∈ v.spine.steps, s.2.weight < v.weight := by
  induction v with
  | binary op a b iha _ =>
    cases op with
    | arith op =>
      simp only [spine, weight_binary, List.mem_append, List.mem_singleton]
      refine ⟨by omega, ?_⟩
      rintro s (h | rfl)
      · have := iha.2 s h
        omega
      · exact Nat.lt_succ_of_le (Nat.le_add_left _ _)
    | _ => simp [spine]
  | _ => simp [spine]

theorem weight_spine_base_lt (op : ArithOp) (a b : Value) :
    (binary (.arith op) a b).spine.base.weight < (binary (.arith op) a b).weight := by
  have := (weight_spine a).1
  simp only [spine, weight_binary]
  omega

/-- Flattening goes strictly down, unless the tree is no arithmetic at all. -/
theorem weight_linearize {op : BinaryOp} {a b : Value}
    (h : ¬ (binary op a b).linearize.base.isBinary) :
    (binary op a b).linearize.base.weight < (binary op a b).weight ∧
      ∀ s ∈ (binary op a b).linearize.steps, s.2.weight < (binary op a b).weight := by
  cases op with
  | arith op =>
    obtain ⟨_, hs⟩ := weight_spine (binary (.arith op) a b)
    have hb := weight_spine_base_lt op a b
    revert h
    unfold linearize
    split
    · next k x rest heq =>
      rw [heq] at hs hb
      simp only [List.mem_cons, forall_eq_or_imp] at hs ⊢
      exact fun _ => ⟨hs.1, hb, hs.2⟩
    · exact fun _ => ⟨hb, hs⟩
  | _ => simp [linearize, spine, isBinary] at h

theorem weight_terms? {op : BinaryOp} {a b : Value} {ts : List (Bool × Value)}
    (h : (binary op a b).terms? = some ts) : ∀ t ∈ ts, t.2.weight < (binary op a b).weight := by
  unfold terms? at h
  split at h
  · cases h
  · next hb =>
    obtain ⟨hbase, hsteps⟩ := weight_linearize hb
    obtain ⟨us, hus, rfl⟩ := Option.map_eq_some_iff.1 h
    intro t ht
    rcases List.mem_cons.1 ht with rfl | ht
    · exact hbase
    · obtain ⟨s, hs, hst⟩ := exists_of_mem_mapM hus ht
      have := hsteps s hs
      unfold signedTerm? at hst
      split at hst <;> cases hst <;> exact this

theorem isBinary_displace {s : Bool} {v : Value} {k : Int32} (h : ¬ (displace s v k).isBinary) :
    displace s v k = v := by
  unfold displace sum at h ⊢
  split at h
  · simp [*]
  · split at h <;> simp [isBinary] at h

/-- Folding that leaves no operator leaves a part of the left operand, or a constant. -/
theorem weight_combine_of_not_isBinary {op : BinaryOp} {a b : Value}
    (h : ¬ (combine op a b).isBinary) : (combine op a b).weight ≤ a.weight := by
  have hadd (s : Bool) (v : Value) (k : Int32) (h : ¬ (addConst s v k).isBinary) :
      (addConst s v k).weight ≤ v.weight := by
    unfold addConst at h ⊢
    split at h
    · next hd =>
      rw [isBinary_displace h, weight_of_displaced? hd]
      exact Nat.le_succ _
    · exact Nat.le_of_eq (congrArg weight (isBinary_displace h))
  unfold combine at h ⊢
  split at h
  · split at h
    · simp
    · simp [isBinary] at h
  · split at h
    · exact hadd _ _ _ h
    · exact hadd _ _ _ h
    · simp [isBinary] at h
  · simp [isBinary] at h

theorem weight_linearize_simplify {op : BinaryOp} {a b : Value}
    (h : ¬ (binary op a b).simplify.linearize.base.isBinary) :
    (binary op a b).simplify.linearize.base.weight < (binary op a b).weight := by
  have hle := weight_simplify_le (binary op a b)
  have ha := weight_simplify_le a
  cases hs : (binary op a b).simplify with
  | binary op' a' b' =>
    rw [hs] at h hle
    have := (weight_linearize h).1
    omega
  | _ =>
    have hc : ¬ (combine op a.simplify b.simplify).isBinary := by
      rw [← simplify, hs]
      simp [isBinary]
    have := weight_combine_of_not_isBinary hc
    rw [← simplify, hs] at this
    simp only [linearize, spine, weight] at this ⊢
    omega

/-- A folded sum, each term with the proof that it is lighter than the whole. -/
def foldedTerms? (v : Value) : Option (List { t : Bool × Value // t.2.weight < v.weight }) :=
  match h : v.simplify with
  | binary op a b =>
    match ht : (binary op a b).terms? with
    | some ts =>
      some (ts.attach.map fun t =>
        ⟨t.1, Nat.lt_of_lt_of_le (weight_terms? ht t.1 t.2) (h ▸ weight_simplify_le v)⟩)
    | none => none
  | _ => none

/-- A folded operator node as a chain, whose base is lighter than the node. -/
def foldedChain? (op : BinaryOp) (a b : Value) :
    Option { c : Chain // c.base.weight < (binary op a b).weight } :=
  if h : (binary op a b).simplify.linearize.base.isBinary then none
  else some ⟨_, weight_linearize_simplify h⟩

end Avr.Value
