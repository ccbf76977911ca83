import Avr.Proofs.Constants

namespace Avr

namespace ArithOp

/-- The operation on words. Numbers have no sign here, and a shift brings in zeros. -/
def onWords : ArithOp → BitVec n → BitVec n → BitVec n
  | add, a, b => a + b
  | sub, a, b => a - b
  | mul, a, b => a * b
  | div, a, b => a / b
  | rem, a, b => a % b
  | shl, a, b => a <<< b.toNat
  | shr, a, b => a >>> b.toNat
  | and, a, b => a &&& b
  | or, a, b => a ||| b
  | xor, a, b => a ^^^ b

end ArithOp

namespace Value

def isConst : Value → Bool
  | const _ => true
  | _ => false

theorem not_isConst {v : Value} (h : ∀ k, v ≠ const k) : ¬ v.isConst := by
  cases v with
  | const k => exact absurd rfl (h k)
  | _ => simp [isConst]

/-- An operator tree over registers, groups and constants in which no operation on constants alone
is left to do. -/
def isExpression : Value → Bool
  | const _ | reg _ | group _ => true
  | binary (.arith _) a b => a.isExpression && b.isExpression && !(a.isConst && b.isConst)
  | _ => false

/-- The value of an expression in `w` bytes. -/
def eval (w : Nat) (s : Cpu) : Value → BitVec (8 * w)
  | const k => constBits w k
  | reg r => s.bits w [r]
  | group rs => s.bits w rs
  | binary (.arith op) a b => op.onWords (a.eval w s) (b.eval w s)
  | _ => 0

theorem eval_congr {w : Nat} {s t : Cpu} {v : Value}
    (h : ∀ r, v.mentions r → t.regs r = s.regs r) : v.eval w t = v.eval w s := by
  induction v with
  | reg r => exact Cpu.bits_congr (by simpa using h)
  | group rs => exact Cpu.bits_congr (by simpa using h)
  | binary op a b iha ihb =>
    cases op with
    | arith op =>
      simp only [eval]
      rw [iha fun r hr => h r (by simp [hr]),
        ihb fun r hr => h r (by simp [hr])]
    | _ => rfl
  | _ => rfl

theorem eval_sum (w : Nat) (s : Cpu) (minus : Bool) (v : Value) (k : Int32) :
    (sum minus v k).eval w s = accumulate minus (v.eval w s) (constBits w k) := by
  cases minus <;> rfl

section

variable {w : Nat} (hw : w ≤ 4) (s : Cpu)

include hw

theorem eval_displace (minus : Bool) (v : Value) (k : Int32) :
    (displace minus v k).eval w s = accumulate minus (v.eval w s) (constBits w k) := by
  unfold displace
  split
  · next h =>
    rw [h, constBits_zero]
    cases minus <;> simp [accumulate]
  · split
    · rw [eval_sum, constBits_neg (.inl hw), accumulate_neg, Bool.not_not]
    · rw [eval_sum]

theorem eval_addConst (minus : Bool) (v : Value) (k : Int32) :
    (addConst minus v k).eval w s = accumulate minus (v.eval w s) (constBits w k) := by
  unfold addConst
  split
  · next inner u j hd =>
    have hv : v.eval w s = accumulate inner (u.eval w s) (constBits w j) := by
      unfold displaced? at hd
      split at hd <;> cases hd <;> rfl
    rw [eval_displace hw, hv]
    simp only [accumulate, Bool.false_eq_true, if_false]
    rw [constBits_add hw, ← BitVec.add_assoc, accumulate_offset (.inl hw),
      accumulate_offset (.inl hw)]
    rfl
  · rw [eval_displace hw]

/-- Unless both operands are constants, folding a node keeps its value. -/
theorem eval_combine (op : ArithOp) {a b : Value} (h : ¬ (a.isConst ∧ b.isConst)) :
    (combine (.arith op) a b).eval w s = op.onWords (a.eval w s) (b.eval w s) := by
  unfold combine
  split
  · exact absurd ⟨rfl, rfl⟩ h
  · split
    · next hop =>
      cases hop
      rw [eval_addConst hw]
      rfl
    · next hop =>
      cases hop
      rw [eval_addConst hw]
      rfl
    · rfl
  · rfl

end

theorem isExpression_binary {op : ArithOp} {a b : Value} :
    (binary (.arith op) a b).isExpression ↔
      a.isExpression ∧ b.isExpression ∧ ¬ (a.isConst ∧ b.isConst) := by
  simp only [isExpression, Bool.and_eq_true, Bool.not_eq_true', Bool.and_eq_false_iff,
    Bool.not_eq_true, not_and_or, and_assoc]

theorem isExpression_displace {minus : Bool} {v : Value} {k : Int32} (hv : v.isExpression)
    (hc : ¬ v.isConst) : (displace minus v k).isExpression ∧ ¬ (displace minus v k).isConst := by
  unfold displace
  split
  · exact ⟨hv, hc⟩
  · split <;> exact ⟨isExpression_binary.mpr ⟨hv, rfl, fun h => hc h.1⟩, by simp [sum, isConst]⟩

theorem isExpression_addConst {minus : Bool} {v : Value} {k : Int32} (hv : v.isExpression)
    (hc : ¬ v.isConst) : (addConst minus v k).isExpression ∧ ¬ (addConst minus v k).isConst := by
  unfold addConst
  split
  · next inner u j hd =>
    have hu : u.isExpression ∧ ¬ u.isConst := by
      unfold displaced? at hd
      split at hd <;> cases hd <;>
        exact ⟨(isExpression_binary.mp hv).1, fun h => (isExpression_binary.mp hv).2.2 ⟨h, rfl⟩⟩
    exact isExpression_displace hu.1 hu.2
  · exact isExpression_displace hv hc

theorem isExpression_combine (op : ArithOp) {a b : Value} (ha : a.isExpression)
    (hb : b.isExpression) (hc : ¬ (a.isConst ∧ b.isConst)) :
    (combine (.arith op) a b).isExpression ∧ ¬ (combine (.arith op) a b).isConst := by
  have hnode : (binary (.arith op) a b).isExpression ∧ ¬ (binary (.arith op) a b).isConst :=
    ⟨isExpression_binary.mpr ⟨ha, hb, hc⟩, by simp [isConst]⟩
  unfold combine
  split
  · exact absurd ⟨rfl, rfl⟩ hc
  · split
    · exact isExpression_addConst ha (fun h => hc ⟨h, rfl⟩)
    · exact isExpression_addConst ha (fun h => hc ⟨h, rfl⟩)
    · exact hnode
  · exact hnode

theorem mentions_displace {minus : Bool} {v : Value} {k : Int32} {r : Reg}
    (h : (displace minus v k).mentions r) : v.mentions r := by
  unfold displace at h
  split at h
  · exact h
  · split at h <;> simpa [sum] using h

theorem mentions_addConst {minus : Bool} {v : Value} {k : Int32} {r : Reg}
    (h : (addConst minus v k).mentions r) : v.mentions r := by
  unfold addConst at h
  split at h
  · next inner u j hd =>
    have hu := mentions_displace h
    unfold displaced? at hd
    split at hd <;> cases hd <;> simp [hu]
  · exact mentions_displace h

theorem mentions_combine {op : BinaryOp} {a b : Value} {r : Reg}
    (h : (combine op a b).mentions r) : a.mentions r ∨ b.mentions r := by
  unfold combine at h
  split at h
  · split at h
    · simp at h
    · simp at h
  · split at h
    · exact .inl (mentions_addConst h)
    · exact .inl (mentions_addConst h)
    · simpa using h
  · simpa using h

theorem mentions_simplify {v : Value} {r : Reg} (h : v.simplify.mentions r) : v.mentions r := by
  induction v with
  | binary op a b iha ihb =>
    rcases mentions_combine h with ha | hb
    · simp [iha ha]
    · simp [ihb hb]
  | signed v ih => exact ih h
  | _ => exact h

/-- Folding an expression keeps its value, and leaves a constant only of a constant. -/
theorem simplify_spec {v : Value} (hv : v.isExpression) :
    v.simplify.isExpression ∧ v.simplify.isConst = v.isConst ∧
      ∀ w ≤ 4, ∀ s, v.simplify.eval w s = v.eval w s := by
  induction v with
  | const | reg | group => exact ⟨hv, rfl, fun _ _ _ => rfl⟩
  | binary op a b iha ihb =>
    cases op with
    | arith op =>
      obtain ⟨ha, hb, hc⟩ := isExpression_binary.mp hv
      obtain ⟨ha', hca, hea⟩ := iha ha
      obtain ⟨hb', hcb, heb⟩ := ihb hb
      rw [← hca, ← hcb] at hc
      obtain ⟨hn, hnc⟩ := isExpression_combine op ha' hb' hc
      refine ⟨hn, Bool.eq_false_iff.mpr hnc, ?_⟩
      intro w hw s
      rw [simplify, eval_combine hw s op hc, hea w hw s, heb w hw s]
      rfl
    | _ => cases hv
  | _ => cases hv

namespace Chain

/-- The base, and then one operation after the other. -/
def eval (w : Nat) (s : Cpu) (c : Chain) : BitVec (8 * w) :=
  c.steps.foldl (fun acc step => step.1.onWords acc (step.2.eval w s)) (c.base.eval w s)

end Chain

theorem eval_spine (w : Nat) (s : Cpu) (v : Value) : v.spine.eval w s = v.eval w s := by
  induction v with
  | binary op a b iha ihb =>
    cases op with
    | arith op =>
      simp only [Chain.eval] at iha
      simp [spine, Chain.eval, List.foldl_append, iha, eval]
    | _ => rfl
  | _ => rfl

theorem eval_linearize (w : Nat) (s : Cpu) (v : Value) : v.linearize.eval w s = v.eval w s := by
  rw [← eval_spine]
  unfold linearize
  split
  · next k x rest h =>
    simp only [h, Chain.eval, List.foldl_cons, ArithOp.onWords]
    rw [BitVec.add_comm]
  · rfl

/-- The base and the operands of a chain. -/
def Chain.parts (c : Chain) : List Value := c.base :: c.steps.map Prod.snd

theorem parts_spine {v : Value} (hv : v.isExpression) :
    ∀ u ∈ v.spine.parts, u.isExpression ∧ ∀ r, u.mentions r → v.mentions r := by
  induction v with
  | binary op a b iha ihb =>
    cases op with
    | arith op =>
      obtain ⟨ha, hb, _⟩ := isExpression_binary.mp hv
      intro u hu
      have hu : u ∈ a.spine.parts ∨ u = b := by
        simpa [spine, Chain.parts, or_assoc] using hu
      rcases hu with hu | rfl
      · obtain ⟨he, hm⟩ := iha ha u hu
        exact ⟨he, fun r hr => by simp [hm r hr]⟩
      · exact ⟨hb, fun r hr => by simp [hr]⟩
    | _ => cases hv
  | _ => simpa [spine, Chain.parts] using hv

theorem parts_linearize {v : Value} (hv : v.isExpression) :
    ∀ u ∈ v.linearize.parts, u.isExpression ∧ ∀ r, u.mentions r → v.mentions r := by
  have hs := parts_spine hv
  unfold linearize
  split
  · next k x rest h =>
    rw [h] at hs
    intro u hu
    refine hs u ?_
    simp only [Chain.parts, List.map_cons, List.mem_cons] at hu ⊢
    tauto
  · exact hs

/-- Terms added up, each with its sign. -/
def total (w : Nat) (s : Cpu) (acc : BitVec (8 * w)) (ts : List (Bool × Value)) : BitVec (8 * w) :=
  ts.foldl (fun acc t => accumulate t.1 acc (t.2.eval w s)) acc

theorem total_cons (w : Nat) (s : Cpu) (acc : BitVec (8 * w)) (t : Bool × Value)
    (ts : List (Bool × Value)) :
    total w s acc (t :: ts) = total w s (accumulate t.1 acc (t.2.eval w s)) ts := rfl

theorem total_congr {w : Nat} {s t : Cpu} {acc : BitVec (8 * w)} {ts : List (Bool × Value)}
    (h : ∀ x ∈ ts, ∀ r, x.2.mentions r → t.regs r = s.regs r) :
    total w t acc ts = total w s acc ts := by
  induction ts generalizing acc with
  | nil => rfl
  | cons x ts ih =>
    rw [total_cons, total_cons, eval_congr (h x (by simp))]
    exact ih fun y hy => h y (by simp [hy])

theorem total_append (w : Nat) (s : Cpu) (acc : BitVec (8 * w)) (ts us : List (Bool × Value)) :
    total w s acc (ts ++ us) = total w s (total w s acc ts) us := by
  simp [total, List.foldl_append]

theorem accumulate_eq_add (m : Bool) (a b : BitVec n) :
    accumulate m a b = a + accumulate m 0 b := by
  cases m <;> simp [accumulate, BitVec.sub_eq_add_neg]

theorem total_eq_add (w : Nat) (s : Cpu) (acc : BitVec (8 * w)) (ts : List (Bool × Value)) :
    total w s acc ts = acc + total w s 0 ts := by
  induction ts generalizing acc with
  | nil => simp [total]
  | cons t ts ih =>
    rw [total_cons, total_cons, ih (accumulate t.1 acc _), ih (accumulate t.1 0 _),
      accumulate_eq_add, BitVec.add_assoc]

theorem total_signedTerms {w : Nat} {s : Cpu} {steps : List (ArithOp × Value)}
    {ts : List (Bool × Value)} (h : steps.mapM signedTerm? = some ts) (acc : BitVec (8 * w)) :
    total w s acc ts = steps.foldl (fun acc step => step.1.onWords acc (step.2.eval w s)) acc := by
  induction steps generalizing ts acc with
  | nil =>
    obtain rfl : ts = [] := by simpa using h.symm
    rfl
  | cons step steps ih =>
    simp only [List.mapM_cons, Option.bind_eq_bind, Option.bind_eq_some_iff, Option.pure_def,
      Option.some.injEq] at h
    obtain ⟨t, ht, us, hus, rfl⟩ := h
    rw [List.foldl_cons, ← ih hus]
    unfold signedTerm? at ht
    split at ht <;> cases ht <;> rfl

/-- A sum is what its terms make up. -/
theorem total_terms {w : Nat} {s : Cpu} {v : Value} {ts : List (Bool × Value)}
    (h : v.terms? = some ts) : total w s 0 ts = v.eval w s := by
  unfold terms? at h
  split at h
  · cases h
  · obtain ⟨us, hus, rfl⟩ := Option.map_eq_some_iff.mp h
    have hbase : accumulate false 0 (v.linearize.base.eval w s) = v.linearize.base.eval w s := by
      simp [accumulate]
    rw [← eval_linearize, Chain.eval, ← total_signedTerms hus, total, List.foldl_cons, hbase]
    rfl

theorem terms_parts {v : Value} {ts : List (Bool × Value)} (h : v.terms? = some ts) :
    ∀ t ∈ ts, t.2 ∈ v.linearize.parts := by
  unfold terms? at h
  split at h
  · cases h
  · obtain ⟨us, hus, rfl⟩ := Option.map_eq_some_iff.mp h
    intro t ht
    rcases List.mem_cons.mp ht with rfl | ht
    · simp [Chain.parts]
    · obtain ⟨step, hstep, he⟩ := exists_of_mem_mapM hus ht
      unfold signedTerm? at he
      split at he <;> cases he <;> simp only [Chain.parts, List.mem_cons, List.mem_map] <;>
        exact .inr ⟨_, hstep, rfl⟩

/-- The signed terms that remain when sums in a sum are opened up, in the order in which they are
added. What is no sum stays as one term. -/
def leaves (value : Value) : List (Bool × Value) :=
  match value.foldedTerms? with
  | some ts => ts.flatMap fun ⟨(minus, t), _⟩ => t.leaves.map fun l => (minus ^^ l.1, l.2)
  | none => [(false, value.simplify)]
termination_by value.weight

theorem foldedTerms_some {v : Value} {ts : List { t : Bool × Value // t.2.weight < v.weight }}
    (h : v.foldedTerms? = some ts) :
    v.simplify.isBinary ∧ v.simplify.terms? = some (ts.map Subtype.val) := by
  unfold foldedTerms? at h
  split at h
  · next op a b hs =>
    split at h
    · next us hus =>
      obtain rfl := Option.some.inj h
      refine ⟨by rw [hs]; rfl, ?_⟩
      rw [List.map_map]
      refine Eq.trans ?_ (congrArg some (List.attach_map_subtype_val us).symm)
      rw [hs, hus]
    · cases h
  · cases h

theorem total_map_sign (w : Nat) (s : Cpu) (minus : Bool) (acc : BitVec (8 * w))
    (ts : List (Bool × Value)) :
    total w s acc (ts.map fun t => (minus ^^ t.1, t.2)) =
      accumulate minus acc (total w s 0 ts) := by
  induction ts generalizing acc with
  | nil => cases minus <;> simp [total, accumulate]
  | cons t ts ih =>
    have hfirst : accumulate (minus ^^ t.1) acc (t.2.eval w s) =
        accumulate minus acc (accumulate t.1 0 (t.2.eval w s)) := by
      cases minus <;> cases t.1 <;> simp [accumulate, BitVec.sub_eq_add_neg]
    rw [List.map_cons, total_cons, total_cons, ih, hfirst, total_eq_add _ _ (accumulate t.1 0 _)]
    cases minus <;> simp only [accumulate, Bool.false_eq_true, if_true, if_false] <;> grind

theorem total_flatMap {w : Nat} {s : Cpu} {ts : List α} (sign : α → Bool) (term : α → Value)
    {f : α → List (Bool × Value)}
    (h : ∀ t ∈ ts, ∀ acc, total w s acc (f t) = accumulate (sign t) acc ((term t).eval w s))
    (acc : BitVec (8 * w)) :
    total w s acc (ts.flatMap f) = total w s acc (ts.map fun t => (sign t, term t)) := by
  induction ts generalizing acc with
  | nil => rfl
  | cons t ts ih =>
    rw [List.flatMap_cons, total_append, h t (by simp), ih fun u hu => h u (by simp [hu])]
    rfl

theorem parts_foldedTerms {v : Value} (hv : v.isExpression)
    {ts : List { t : Bool × Value // t.2.weight < v.weight }} (h : v.foldedTerms? = some ts) :
    ∀ t ∈ ts, t.1.2.isExpression ∧ ∀ r, t.1.2.mentions r → v.mentions r := by
  intro t ht
  have hmem := terms_parts (foldedTerms_some h).2 _ (List.mem_map_of_mem ht)
  obtain ⟨he, hm⟩ := parts_linearize (simplify_spec hv).1 _ hmem
  exact ⟨he, fun r hr => mentions_simplify (hm r hr)⟩

/-- Opening up the sums in an expression keeps its value. -/
theorem leaves_spec {v : Value} (hv : v.isExpression) :
    (∀ w ≤ 4, ∀ s acc, total w s acc v.leaves = acc + v.eval w s) ∧
      ∀ l ∈ v.leaves, l.2.isExpression ∧ ∀ r, l.2.mentions r → v.mentions r := by
  induction hn : v.weight using Nat.strong_induction_on generalizing v with
  | _ n ih =>
    subst hn
    obtain ⟨hs, _, hse⟩ := simplify_spec hv
    rw [leaves]
    split
    · next ts hts =>
      have hterms := (foldedTerms_some hts).2
      have hpart := parts_foldedTerms hv hts
      have hrec (t) (ht : t ∈ ts) := ih _ t.2 (hpart t ht).1 rfl
      refine ⟨?_, ?_⟩
      · intro w hw s acc
        rw [total_flatMap (fun t => t.1.1) (fun t => t.1.2)]
        · rw [← hse w hw, ← total_terms hterms, ← total_eq_add]
        · intro t ht acc
          rw [total_map_sign, (hrec t ht).1 w hw s 0]
          simp
      · intro l hl
        obtain ⟨t, ht, hl⟩ := List.mem_flatMap.mp hl
        obtain ⟨l', hl', rfl⟩ := List.mem_map.mp hl
        obtain ⟨he, hm⟩ := (hrec t ht).2 l' hl'
        exact ⟨he, fun r hr => (hpart t ht).2 r (hm r hr)⟩
    · refine ⟨fun w hw s acc => ?_, ?_⟩
      · rw [← hse w hw]
        rfl
      · intro l hl
        obtain rfl := List.mem_singleton.mp hl
        exact ⟨hs, fun r hr => mentions_simplify hr⟩

end Value

end Avr
