import Avr.Lowering.Address
import Avr.Proofs.Expression

namespace Avr.Value

/-- There is nothing left to fold. -/
def Folded : Value → Prop
  | binary op a b => a.Folded ∧ b.Folded ∧ combine op a b = binary op a b
  | signed v => v.Folded
  | _ => True

theorem Folded.simplify_eq {v : Value} (h : v.Folded) : v.simplify = v := by
  induction v with
  | binary op a b iha ihb => rw [simplify, iha h.1, ihb h.2.1, h.2.2]
  | signed v ih => rw [simplify, ih h]
  | _ => rfl

theorem displaced_some {v w : Value} {minus : Bool} {k : Int32}
    (h : v.displaced? = some (minus, w, k)) :
    v = binary (.arith (if minus then .sub else .add)) w (const k) := by
  unfold displaced? at h
  split at h <;> cases h <;> rfl

theorem combine_const {op : ArithOp} {w : Value} {k : Int32} (hc : ¬ w.isConst) :
    combine (.arith op) w (const k) =
      match op with
      | .add => addConst false w k
      | .sub => addConst true w k
      | op => binary (.arith op) w (const k) := by
  cases w <;> first | exact absurd rfl hc | cases op <;> rfl

theorem combine_sum {minus : Bool} {w : Value} {k : Int32} (hc : ¬ w.isConst) :
    combine (.arith (if minus then .sub else .add)) w (const k) = addConst minus w k := by
  rw [combine_const hc]
  cases minus <;> rfl

theorem folded_displace {w : Value} (hw : w.Folded) (hc : ¬ w.isConst) (hd : w.displaced? = none)
    (minus : Bool) (k : Int32) : (displace minus w k).Folded := by
  have hsum (minus : Bool) {k : Int32} (hz : k ≠ 0) (hk : ¬ (k < 0 ∧ k ≠ Int32.minValue)) :
      (sum minus w k).Folded := by
    refine ⟨hw, trivial, ?_⟩
    rw [combine_sum hc, addConst, hd, displace, if_neg hz, if_neg hk]
    rfl
  unfold displace
  split
  · exact hw
  · next hz =>
    split
    · next hk => exact hsum _ (by simpa using hz) (by grind)
    · next hk => exact hsum _ hz hk

/-- In a folded sum the constant stands alone. -/
theorem Folded.displaced {v w : Value} {minus : Bool} {k : Int32} (hv : v.Folded)
    (h : v.displaced? = some (minus, w, k)) :
    w.Folded ∧ ¬ w.isConst ∧ w.displaced? = none := by
  obtain rfl := displaced_some h
  obtain ⟨hw, -, hfold⟩ := hv
  have hc : ¬ w.isConst := by
    intro hc
    cases w with
    | const j => cases minus <;> cases hfold
    | _ => cases hc
  refine ⟨hw, hc, ?_⟩
  rw [combine_sum hc, addConst] at hfold
  split at hfold
  · next inner u j hd =>
    have hweight := weight_of_displaced? hd
    have hle := weight_displace_le false u (offset inner j + offset minus k)
    rw [hfold] at hle
    simp only [weight_binary] at hle
    omega
  · assumption

theorem folded_addConst {v : Value} (hv : v.Folded) (hc : ¬ v.isConst) (minus : Bool)
    (k : Int32) : (addConst minus v k).Folded := by
  unfold addConst
  split
  · next hd =>
    obtain ⟨hw, hc, hd⟩ := hv.displaced hd
    exact folded_displace hw hc hd _ _
  · next hd => exact folded_displace hv hc hd _ _

theorem folded_combine {op : BinaryOp} {a b : Value} (ha : a.Folded) (hb : b.Folded) :
    (combine op a b).Folded := by
  by_cases h : combine op a b = binary op a b
  · rw [h]
    exact ⟨ha, hb, h⟩
  · unfold combine at h ⊢
    split
    · split
      · trivial
      · simp_all
    · next hconst =>
      have hc : ¬ a.isConst := by
        cases a with
        | const j => exact (hconst j rfl).elim
        | _ => simp [isConst]
      split
      · exact folded_addConst ha hc _ _
      · exact folded_addConst ha hc _ _
      · simp_all
    · simp_all

theorem folded_simplify (v : Value) : v.simplify.Folded := by
  induction v with
  | binary op a b iha ihb => exact folded_combine iha ihb
  | signed v ih => exact ih
  | _ => trivial

theorem Folded.parts_spine {v : Value} (h : v.Folded) : ∀ u ∈ v.spine.parts, u.Folded := by
  induction v with
  | binary op a b iha _ =>
    cases op with
    | arith op =>
      intro u hu
      simp only [spine, Chain.parts, List.map_append, List.mem_cons, List.mem_append] at hu
      rcases hu with rfl | hu | hu
      · exact iha h.1 _ (by simp [Chain.parts])
      · exact iha h.1 u (by simp [Chain.parts, hu])
      · obtain rfl : u = b := by simpa using hu
        exact h.2.1
    | _ => simpa [spine, Chain.parts] using h
  | _ => simpa [spine, Chain.parts] using h

/-- The rearrangement of a sum keeps its parts. -/
theorem mem_parts_linearize {v u : Value} : u ∈ v.linearize.parts ↔ u ∈ v.spine.parts := by
  unfold linearize
  split
  · next h =>
    rw [h]
    simp only [Chain.parts, List.map_cons, List.mem_cons]
    tauto
  · rfl

theorem signedTerms_spec {steps : List (ArithOp × Value)} {ts : List (Bool × Value)}
    (h : steps.mapM signedTerm? = some ts) :
    (∀ s ∈ steps, s.1 = .add ∨ s.1 = .sub) ∧ ts.map Prod.snd = steps.map Prod.snd := by
  induction steps generalizing ts with
  | nil =>
    cases h
    simp
  | cons s steps ih =>
    simp only [List.mapM_cons, Option.bind_eq_bind, Option.bind_eq_some_iff, Option.pure_def,
      Option.some.injEq] at h
    obtain ⟨t, ht, us, hus, rfl⟩ := h
    obtain ⟨hops, hmap⟩ := ih hus
    unfold signedTerm? at ht
    split at ht <;> cases ht <;> simpa [hmap] using hops

/-- The terms of a sum are its parts. -/
theorem terms_spec {v : Value} {ts : List (Bool × Value)} (h : v.terms? = some ts) :
    (∀ s ∈ v.linearize.steps, s.1 = .add ∨ s.1 = .sub) ∧
      ts.map Prod.snd = v.linearize.parts := by
  unfold terms? at h
  split at h
  · cases h
  · obtain ⟨us, hus, rfl⟩ := Option.map_eq_some_iff.mp h
    obtain ⟨hops, hmap⟩ := signedTerms_spec hus
    exact ⟨hops, by simp [Chain.parts, hmap]⟩

theorem spine_ops {v : Value} (h : ∀ s ∈ v.linearize.steps, s.1 = .add ∨ s.1 = .sub) :
    ∀ s ∈ v.spine.steps, s.1 = .add ∨ s.1 = .sub := by
  unfold linearize at h
  split at h
  · next hs =>
    rw [hs]
    intro s hmem
    rcases List.mem_cons.mp hmem with rfl | hmem
    · exact .inl rfl
    · exact h s (by simp [hmem])
  · exact h

/-- A sum of constants does not stay one. -/
theorem Folded.isConst_of_parts {v : Value} (hv : v.Folded)
    (hops : ∀ s ∈ v.spine.steps, s.1 = .add ∨ s.1 = .sub)
    (h : ∀ u ∈ v.spine.parts, u.isConst) : v.isConst := by
  induction v with
  | binary op a b iha _ =>
    cases op with
    | arith op =>
      simp only [spine, Chain.parts, List.map_append, List.mem_cons, List.mem_append] at h hops
      have ha : a.isConst := by
        refine iha hv.1 (fun s hs => hops s (.inl hs)) fun u hu => h u ?_
        rcases List.mem_cons.mp hu with hu | hu
        · exact .inl hu
        · exact .inr (.inl hu)
      have hb : b.isConst := h b (by simp)
      have hop : op = .add ∨ op = .sub := hops (op, b) (by simp)
      have hfold := hv.2.2
      cases a <;> cases ha
      cases b <;> cases hb
      rcases hop with rfl | rfl <;> cases hfold
    | _ => exact h _ (by simp [spine, Chain.parts])
  | _ => exact h _ (by simp [spine, Chain.parts])

theorem address_isSome {v : Value} :
    v.address?.isSome ↔ ∀ u ∈ v.spine.parts, u.address?.isSome := by
  induction v with
  | binary op a b iha _ =>
    cases op with
    | arith op =>
      have hab : (binary (.arith op) a b).address?.isSome ↔
          a.address?.isSome ∧ b.address?.isSome := by
        cases ha : a.address? <;> cases hb : b.address? <;>
          simp [address?, BinaryOp.isRelational, ha, hb]
      rw [hab, iha]
      simp only [spine, Chain.parts, List.map_append, List.mem_cons, List.mem_append]
      simp only [List.map_cons, List.map_nil, List.mem_singleton]
      grind
    | _ => simp [spine, Chain.parts]
  | _ => simp [spine, Chain.parts]

theorem externalPointer_some {v : Value} {e : ExternalRef} (h : v.externalPointer? = some e) :
    ∃ x, v = external x := by
  cases v with
  | external x => exact ⟨x, rfl⟩
  | _ => cases h

theorem externalAddress_base {v : Value} {e : ExternalRef} (h : v.externalAddress? = some e) :
    ∃ x, v.linearize.base = external x := by
  unfold externalAddress? at h
  split at h
  · obtain ⟨_, hr, -⟩ := Option.bind_eq_some_iff.mp h
    obtain ⟨x, rfl⟩ := externalPointer_some hr
    exact ⟨x, rfl⟩
  · obtain ⟨_, hr, -⟩ := Option.bind_eq_some_iff.mp h
    obtain ⟨x, rfl⟩ := externalPointer_some hr
    exact ⟨x, rfl⟩
  · obtain ⟨_, hr, -⟩ := Option.bind_eq_some_iff.mp h
    obtain ⟨x, rfl⟩ := externalPointer_some hr
    exact ⟨x, rfl⟩
  · cases h
  · obtain ⟨x, rfl⟩ := externalPointer_some h
    exact ⟨x, rfl⟩

section

variable {v : Value} {ts : List { t : Bool × Value // t.2.weight < v.weight }}

theorem foldedTerms_parts (h : v.foldedTerms? = some ts) {P : Value → Prop}
    (hts : ∀ t ∈ ts, P t.1.2.simplify) : ∀ u ∈ v.simplify.spine.parts, P u := by
  intro u hu
  have hterms := (terms_spec (foldedTerms_some h).2).2
  have hmem := mem_parts_linearize.mpr hu
  rw [← hterms, List.map_map] at hmem
  obtain ⟨t, ht, rfl⟩ := List.mem_map.mp hmem
  have hfold : t.1.2.Folded := (folded_simplify v).parts_spine _ hu
  have hp := hts t ht
  rwa [hfold.simplify_eq] at hp

theorem foldedTerms_const (h : v.foldedTerms? = some ts) :
    ∃ t ∈ ts, ¬ t.1.2.simplify.isConst := by
  by_contra! hall
  obtain ⟨hb, hterms⟩ := foldedTerms_some h
  have hconst := (folded_simplify v).isConst_of_parts (spine_ops (terms_spec hterms).1)
    (foldedTerms_parts h (P := fun u => u.isConst) (by simpa using hall))
  cases hs : v.simplify <;> simp_all [isConst, isBinary]

theorem foldedTerms_address (h : v.foldedTerms? = some ts)
    (hts : ∀ t ∈ ts, t.1.2.simplify.address?.isSome) : v.simplify.address?.isSome :=
  address_isSome.mpr (foldedTerms_parts h (P := fun u => u.address?.isSome) hts)

end

end Avr.Value
