import Avr.Proofs.Allocation

namespace Avr

namespace Trace

/-- Every result satisfies `P`. -/
def Results (P : α → Prop) (x : Trace α) : Prop := ∀ a, x.outcome = .ok a → P a

variable {P : α → Prop}

theorem results_pure {a : α} (h : P a) : Results P (pure a : Trace α) := by
  intro b hb
  cases hb
  exact h

theorem results_fail {l : Location} {e : SemanticError} : Results P (fail l e : Trace α) := by
  intro a ha
  cases ha

theorem results_get {l : Location} {e : SemanticError} {o : Option α} (h : ∀ a ∈ o, P a) :
    Results P (get l e o) := by
  cases o with
  | none => exact results_fail
  | some a => exact results_pure (h a rfl)

/-- Only what comes last matters. -/
theorem results_bind {x : Trace β} {f : β → Trace α} (h : ∀ b, Results P (f b)) :
    Results P (x >>= f) := by
  intro a ha
  cases hx : x.outcome with
  | error e =>
    rw [bind_error hx] at ha
    cases ha
  | ok b =>
    rw [bind_ok hx] at ha
    exact h b a ha

end Trace

namespace Value

def isVar : Value → Bool
  | var _ => true
  | _ => false

theorem isVar_ofRegisters (rs : List Reg) : (ofRegisters rs).isVar = false := by
  unfold ofRegisters
  split <;> rfl

theorem isVar_ofUnary (op : UnaryOp) (v : Value) : (ofUnary op v).isVar = false := by
  unfold ofUnary
  split <;> rfl

end Value

namespace Names

open Trace

variable {n : Names} {follow : String → Located Expr → Trace Value} {es : List Emission}

theorem isVar_register {name : String} {v : Value} (h : register? name = some v) :
    v.isVar = false := by
  unfold register? at h
  split at h
  · cases h
    rfl
  · obtain ⟨r, -, rfl⟩ := Option.map_eq_some_iff.mp h
    rfl

theorem isVar_portBit (port : Port) (bit : Nat) : (portBit port bit).isVar = false := by
  unfold portBit
  split <;> rfl

theorem isVar_flash {i : Indirect} {v : Value} (h : i.flash? = some v) : v.isVar = false := by
  unfold Indirect.flash? at h
  split at h <;> cases h <;> rfl

theorem declared_eq_var {name : String} {v : Variable} (h : n.declared name = .var v) :
    v ∈ n.globals.vars := by
  unfold declared at h
  simp only at h
  split at h
  · next hr =>
    have hvar := isVar_register hr
    rw [h] at hvar
    cases hvar
  · next hv =>
    cases h
    exact List.mem_of_find?_eq_some hv
  · cases h
  · split at h <;> cases h

/-- Nothing but a name stands for a variable. -/
theorem results_eval {l : Location} {e : Expr} (he : e.ident? = none) :
    Results (fun v => v.isVar = false) (n.eval follow l e) := by
  cases e with
  | ident name => cases he
  | number k => exact results_pure rfl
  | char c => exact results_pure rfl
  | str s => exact results_fail
  | register name => exact results_get fun v hv => isVar_register hv
  | group items => exact results_bind fun rs => results_pure (Value.isVar_ofRegisters rs)
  | unary op i => exact results_bind fun v => results_pure (Value.isVar_ofUnary op v)
  | suffix op i => exact results_bind fun _ => results_pure rfl
  | assign op t v => exact results_bind fun _ => results_bind fun _ => results_pure rfl
  | signed i => exact results_bind fun _ => results_pure rfl
  | binary op a b =>
    refine results_bind fun x => results_bind fun y => ?_
    unfold Value.ofBinary
    split
    · exact results_bind fun _ => results_pure rfl
    · exact results_pure rfl
  | arrow b m =>
    simp only [eval]
    split
    · exact results_bind fun _ => results_bind fun _ => results_pure rfl
    · refine results_bind fun x => ?_
      split
      · split
        · exact results_bind fun _ => results_pure (isVar_portBit _ _)
        · exact results_bind fun _ => results_bind fun _ => results_pure (isVar_portBit _ _)
      · exact results_fail
  | index b i =>
    simp only [eval]
    split
    · exact results_bind fun _ => results_pure rfl
    · exact results_bind fun _ => results_get fun _ hv => isVar_flash hv
    · refine results_bind fun x => ?_
      split
      · split
        · exact results_pure rfl
        · exact results_bind fun _ => results_bind fun _ => results_pure rfl
      · exact results_bind fun _ => results_bind fun _ => results_pure rfl
      · refine results_bind fun _ => results_bind fun _ => ?_
        split
        · exact results_fail
        · exact results_pure rfl
      · exact results_fail
  | call c =>
    obtain ⟨name, args⟩ := c
    unfold eval
    split
    · split
      · exact results_bind fun _ => results_bind fun _ => results_pure rfl
      · exact results_fail
    · split
      · exact results_bind fun _ => results_bind fun _ => results_pure rfl
      · exact results_fail
    · split
      · exact results_bind fun _ => results_pure rfl
      · exact results_fail
    · split
      · exact results_fail
      · exact results_bind fun _ => results_pure rfl
    · exact results_fail

/-- A name that stands for a variable stands for one of those that are declared. -/
theorem mem_vars_of_eval
    (hf : ∀ name e, Results (fun w => ∀ v, w = .var v → v ∈ n.globals.vars) (follow name e))
    (l : Location) (e : Expr) :
    Results (fun w => ∀ v, w = .var v → v ∈ n.globals.vars) (n.eval follow l e) := by
  cases hid : e.ident? with
  | none =>
    intro w hw v hv
    have hvar := results_eval hid w hw
    rw [hv] at hvar
    cases hvar
  | some name =>
    obtain rfl : e = .ident name := by
      cases e <;> cases hid
      rfl
    simp only [eval, value]
    split
    · refine results_bind fun _ => results_pure ?_
      intro v hv
      cases hv
    · split
      · exact hf _ _
      · exact results_pure fun v hv => declared_eq_var hv

theorem mem_vars_of_followUpTo (n : Names) (k : Nat) (name : String) (e : Located Expr) :
    Results (fun w => ∀ v, w = .var v → v ∈ n.globals.vars) (n.followUpTo k name e) := by
  induction k generalizing name e with
  | zero => exact results_fail
  | succ k ih => exact mem_vars_of_eval ih _ _

theorem mem_vars_of_resolve {e : Located Expr} {v : Variable}
    (h : (n.resolve e).outcome = .ok (.var v)) : v ∈ n.globals.vars :=
  mem_vars_of_eval (n.mem_vars_of_followUpTo _) _ _ _ h v rfl

/-- An index that is accepted is smaller than the variable. -/
theorem eval_index_cell {l bl il : Location} {b i : Expr} {a : Nat}
    (h : (n.eval follow l (.index ⟨bl, b⟩ ⟨il, i⟩)).Yields es (.cell a)) :
    ∃ v k, (n.eval follow bl b).outcome = .ok (.var v) ∧
      (n.eval follow il i).outcome = .ok (.const k) ∧ 0 ≤ k ∧ k.toNatClampNeg < v.size ∧
      a = wrap32 (v.address + k.toNatClampNeg) := by
  unfold eval at h
  split at h
  · simp only [yields_bind, yields_pure] at h
    obtain ⟨_, _, _, _, ⟨-, h⟩, -⟩ := h
    cases h
  · simp only [yields_bind, yields_get] at h
    obtain ⟨x, _, _, _, ⟨-, h⟩, -⟩ := h
    unfold Indirect.flash? at h
    split at h <;> cases h
  · simp only [yields_bind] at h
    obtain ⟨x, _, _, hx, h, -⟩ := h
    split at h
    · split at h
      · cases (yields_pure.mp h).2
      · simp only [yields_bind, yields_pure] at h
        obtain ⟨_, _, _, _, ⟨_, _, _, _, ⟨-, h⟩, -⟩, -⟩ := h
        cases h
    · simp only [yields_bind, yields_pure] at h
      obtain ⟨_, _, _, _, ⟨_, _, _, _, ⟨-, h⟩, -⟩, -⟩ := h
      cases h
    · next v =>
      simp only [yields_bind] at h
      obtain ⟨y, _, _, hy, ⟨k, _, _, hk, h, -⟩, -⟩ := h
      split at h
      · simp at h
      · next hbounds =>
        obtain ⟨-, h⟩ := yields_pure.mp h
        cases h
        obtain ⟨hneg, hsize⟩ := not_or.mp hbounds
        refine ⟨v, k, hx.2, ?_, Int32.not_lt.mp hneg, Nat.not_le.mp hsize, rfl⟩
        have hconst := hk.2
        unfold Value.constant at hconst
        split at hconst
        · cases hconst
          exact hy.2
        · cases hconst
    · simp at h

end Names

end Avr
