import Avr.Proofs.Assignment
import Avr.Proofs.Folding

namespace Avr

namespace Value

/-- Updating registers with the value changes nothing that an instruction would be needed for. -/
def NoUpdate (op : ArithOp) (target value : Value) : Prop :=
  match op, target.unmarked with
  | .add, .group _ | .sub, .group _ =>
    ∃ e, value.simplify.address? = some e ∧ e.constant? = some 0
  | .and, .group rs => ∃ k, value.simplify = const k ∧ ∀ n < rs.length, constByte k n = 0xff
  | .or, .group rs => ∃ k, value.simplify = const k ∧ ∀ n < rs.length, constByte k n = 0
  | .add, _ | .sub, _ | .shl, _ | .shr, _ => value.simplify = const 0
  | _, _ => False

/-- Loading the value into the registers would leave them as they are. -/
inductive Kept : Value → Value → Prop
  | reg (r : Reg) : Kept (reg r) (reg r)
  | group (rs : List Reg) : Kept (group rs) (group rs)
  | signed {target v : Value} (h : Kept target v) : Kept target (signed v)
  | chain {target a b : Value} {op : BinaryOp}
      (hb : ¬ (binary op a b).simplify.linearize.base.isBinary)
      (hbase : Kept target (binary op a b).simplify.linearize.base)
      (hsteps : ∀ s ∈ (binary op a b).simplify.linearize.steps, NoUpdate s.1 target s.2) :
      Kept target (binary op a b)

/-- Assigning the value needs no code. -/
inductive NoAssign : Value → Value → Prop
  | kept {target v : Value} (h : Kept target.unmarked v) : NoAssign target v
  | set {target t v : Value} (hv : NoAssign t v) (ht : NoAssign target t) :
      NoAssign target (assign .set t v)
  | update {target t v : Value} {op : ArithOp} (hv : NoUpdate op t v) (ht : NoAssign target t) :
      NoAssign target (assign (.update op) t v)

/-- Assigning by an operator needs no code. -/
def NoAssignBy : AssignOp → Value → Value → Prop
  | .set, target, v => NoAssign target v
  | .update op, target, v => NoUpdate op target v

/-- Groups that are moved as a whole have a register. -/
def Proper : Value → Prop
  | group rs => rs ≠ []
  | unary _ v | suffix _ v | signed v => v.Proper
  | assign _ t v => t.Proper ∧ v.Proper
  | _ => True

theorem Proper.unmarked_ne {v : Value} (h : v.Proper) : v.unmarked ≠ group [] := by
  induction v with
  | group rs => simpa [unmarked, Proper] using h
  | signed v ih => exact ih h
  | _ => simp [unmarked]

theorem Kept.isRegisters {target v : Value} (h : Kept target v) :
    (∃ r, target = .reg r) ∨ ∃ rs, target = .group rs := by
  induction h with
  | reg r => exact .inl ⟨r, rfl⟩
  | group rs => exact .inr ⟨rs, rfl⟩
  | signed _ ih => exact ih
  | chain _ _ _ ih => exact ih

/-- An address is no group. -/
theorem Kept.address_eq_none {rs : List Reg} {a b : Value} {op : BinaryOp}
    (h : Kept (.group rs) (binary op a b)) :
    (binary op a b).simplify.address? = none ∧
      (binary op a b).simplify.externalAddress? = none := by
  cases h with
  | chain hb hbase _ =>
    have hparts : (binary op a b).simplify.linearize.base ∈ (binary op a b).simplify.spine.parts :=
      mem_parts_linearize.mp (by simp [Chain.parts])
    generalize (binary op a b).simplify = v at *
    constructor
    · rw [← Option.not_isSome_iff_eq_none, address_isSome]
      intro hall
      have hsome := hall _ hparts
      generalize v.linearize.base = base at *
      cases hbase with
      | group => cases hsome
      | signed => cases hsome
      | chain => exact hb rfl
    · cases he : v.externalAddress? with
      | none => rfl
      | some e =>
        obtain ⟨x, hx⟩ := externalAddress_base he
        rw [hx] at hbase
        cases hbase

theorem not_noUpdate_one {op : StepOp} {v : Value} :
    ¬ NoUpdate (match op with | .inc => .add | .dec => .sub) v (const 1) := by
  have hone : ¬ ∃ e, address? (const 1) = some e ∧ e.constant? = some 0 := by
    simp [address?, AddrExpr.constant?, AddrExpr.eval, Except.toOption]
  cases op <;> simp only [NoUpdate, simplify] <;> split <;> simp_all

end Value

namespace Move

/-- Nothing is moved if both groups are the same. -/
theorem plan_eq_nil {dest source : List Reg} {ms : List Move} (h : plan? dest source = some ms)
    (hlen : dest.length = source.length) : ms = [] ↔ source = dest := by
  obtain ⟨-, hperm⟩ := plan_some h
  constructor
  · rintro rfl
    have hnil := List.nil_perm.mp hperm
    have hall : ∀ x ∈ dest.zip source, x.1 = x.2 := by simpa using hnil
    calc source = (dest.zip source).map Prod.snd := (List.map_snd_zip (by omega)).symm
      _ = (dest.zip source).map Prod.fst := List.map_congr_left fun x hx => (hall x hx).symm
      _ = dest := List.map_fst_zip (by omega)
  · rintro rfl
    have hnil : (source.zip source).filter (fun x => x.1 ≠ x.2) = [] := by
      have hself := List.zip_map' (f := id) (g := id) (l := source)
      simp only [List.map_id] at hself
      simp [hself]
    rw [hnil, List.perm_nil, List.flatMap_eq_nil_iff] at hperm
    refine List.eq_nil_iff_forall_not_mem.mpr fun m hm => ?_
    have hpairs := hperm m hm
    cases m <;> cases hpairs

end Move

namespace Selection

/-- If there is code, then it is empty just in this case. -/
def Idles (s : Selection) (P : Prop) : Prop := ∀ is, s.Gives is → (is = [] ↔ P)

variable {P Q : Prop}

theorem Idles.congr {s : Selection} (h : s.Idles P) (hpq : P ↔ Q) : s.Idles Q :=
  fun is his => (h is his).trans hpq

/-- What always has code. -/
theorem Idles.never {s : Selection} (h : s.Idles False) (hp : ¬ P) : s.Idles P :=
  h.congr (iff_of_false id hp)

theorem idles_fail (e : SemanticError) : (fail e).Idles P :=
  fun _ h => absurd h not_gives_fail

theorem idles_nothing : nothing.Idles True :=
  fun _ h => iff_of_true (gives_nothing h) trivial

theorem idles_warn (w : Warning) : (warn w).Idles True :=
  fun _ h => iff_of_true (gives_warn h) trivial

theorem idles_emit (m : Mnemonic) (operands : List Operand) : (emit m operands).Idles False := by
  intro is h
  simp [gives_emit h]

theorem idles_cons {s : Selection} {rest : List Selection} (hs : s.Idles P)
    (hrest : (sequence rest).Idles Q) : (sequence (s :: rest)).Idles (P ∧ Q) := by
  intro is his
  obtain ⟨js, ks, hj, hk, rfl⟩ := gives_sequence_cons.mp his
  rw [List.append_eq_nil_iff, hs js hj, hrest ks hk]

/-- A sequence has no code if none of its parts has any. -/
theorem idles_sequence {f : α → Selection} {R : α → Prop} {xs : List α}
    (h : ∀ x ∈ xs, (f x).Idles (R x)) : (sequence (xs.map f)).Idles (∀ x ∈ xs, R x) := by
  induction xs with
  | nil => exact idles_nothing.congr (by simp)
  | cons x xs ih =>
    exact (idles_cons (h x (by simp)) (ih fun y hy => h y (by simp [hy]))).congr (by simp)

theorem idles_two {s t : Selection} (hs : s.Idles P) (ht : t.Idles Q) :
    (sequence [s, t]).Idles (P ∧ Q) :=
  idles_cons hs fun is his => ht is (gives_sequence_one.mp his)

/-- One instruction or more. -/
theorem idles_emits {xs : List Selection} (hx : xs ≠ []) (h : ∀ x ∈ xs, x.Idles False) :
    (sequence xs).Idles False := by
  have hall := idles_sequence (f := id) h
  rw [List.map_id] at hall
  refine hall.congr (iff_false_intro fun hall => ?_)
  obtain ⟨x, hx⟩ := List.exists_mem_of_ne_nil xs hx
  exact hall x hx

theorem offset_eq_zero {minus : Bool} {k : Int32} : Value.offset minus k = 0 ↔ k = 0 := by
  cases minus with
  | false => rfl
  | true =>
    simp only [Value.offset, if_true]
    grind

theorem toNatClampNeg_ne_zero {k : Int32} (h : ¬ k < 0) (hk : k ≠ 0) : k.toNatClampNeg ≠ 0 := by
  have hne : k.toInt ≠ 0 := fun h => hk (Int32.toInt_inj.mp (by simpa using h))
  have hdef : k.toNatClampNeg = k.toInt.toNat := rfl
  rw [Int32.lt_iff_toInt_lt, Int32.toInt_zero] at h
  omega

theorem idles_addRegConst (r : Reg) (k : Int32) : (addRegConst r k).Idles (k = 0) := by
  unfold addRegConst
  split
  · next hk => exact (idles_warn _).congr (iff_of_true trivial hk)
  · next hk =>
    have hemit (m : Mnemonic) (operands : List Operand) : (emit m operands).Idles (k = 0) :=
      (idles_emit m operands).congr (iff_of_false id hk)
    split
    · exact hemit _ _
    · split
      · exact hemit _ _
      · split
        · exact hemit _ _
        · exact idles_fail _

theorem idles_addReg (r : Reg) (minus : Bool) (v : Value) :
    (addReg r minus v).Idles (v.simplify = .const 0) := by
  induction hn : v.weight using Nat.strong_induction_on generalizing v minus with
  | _ n ih =>
    subst hn
    rw [addReg]
    split
    · next k hk => exact (idles_addRegConst r _).congr (by simp [hk, offset_eq_zero])
    · next q hq => exact (idles_emit _ _).congr (by simp [hq])
    · next op a b hb =>
      split
      · next ts hts =>
        refine (idles_sequence fun t ht => ih _ t.2 _ _ rfl).congr (iff_of_false ?_ (by simp [hb]))
        obtain ⟨t, ht, hconst⟩ := Value.foldedTerms_const hts
        intro hall
        exact hconst (by rw [hall t ht]; rfl)
      · exact idles_fail _
    · exact idles_fail _

theorem idles_shiftReg (m : Mnemonic) (r : Reg) (v : Value) :
    (shiftReg m r v).Idles (v = .const 0) := by
  unfold shiftReg
  split
  · next k =>
    split
    · next hk => exact (idles_warn _).congr (by simp [hk])
    · next hk =>
      split
      · next hrange =>
        refine (idles_emits ?_ fun x hx => ?_).congr (by simp [hk])
        · simpa using toNatClampNeg_ne_zero (by grind) hk
        · rw [List.eq_of_mem_replicate hx]
          exact idles_emit _ _
      · exact idles_fail _
  · exact idles_fail _

theorem idles_updateReg (r : Reg) (op : ArithOp) (v : Value) :
    (updateReg r op v).Idles (Value.NoUpdate op (.reg r) v) := by
  unfold updateReg
  split
  · exact idles_addReg r false v
  · exact idles_addReg r true v
  · exact idles_emit _ _
  · exact idles_emit _ _
  · exact idles_emit _ _
  · exact idles_emit _ _
  · exact idles_emit _ _
  · exact idles_shiftReg _ _ _
  · exact idles_shiftReg _ _ _
  · exact idles_fail _

section

variable {rs : List Reg} (hrs : rs ≠ [])

include hrs

theorem idles_subtractBytes (byte : Nat → Operand) : (subtractBytes rs byte).Idles False := by
  refine idles_emits (by simp [lowFirst, hrs]) fun x hx => ?_
  obtain ⟨p, _, rfl⟩ := List.mem_map.mp hx
  exact idles_emit _ _

theorem idles_addGroupConst (k : Int32) : (addGroupConst rs k).Idles (k = 0) := by
  unfold addGroupConst
  split
  · next hk => exact (idles_warn _).congr (iff_of_true trivial hk)
  · next hk =>
    have hemit (m : Mnemonic) (operands : List Operand) : (emit m operands).Idles (k = 0) :=
      (idles_emit m operands).congr (iff_of_false id hk)
    have hbytes (byte : Nat → Operand) : (subtractBytes rs byte).Idles (k = 0) :=
      (idles_subtractBytes hrs byte).congr (iff_of_false id hk)
    split
    · split
      · exact hemit _ _
      · split
        · exact hemit _ _
        · exact hbytes _
    · exact hbytes _

theorem idles_addGroupAddress (minus : Bool) (e : AddrExpr) :
    (addGroupAddress rs minus e).Idles (e.constant? = some 0) := by
  unfold addGroupAddress
  split
  · next k hk => exact (idles_addGroupConst hrs _).congr (by simp [hk, offset_eq_zero])
  · next hnone => exact (idles_subtractBytes hrs _).congr (by simp [hnone])

theorem idles_addGroups (minus : Bool) (ss : List Reg) : (addGroups minus rs ss).Idles False := by
  unfold addGroups
  split
  · exact idles_fail _
  · next hlen =>
    have hss : ss ≠ [] := by
      rintro rfl
      exact hrs (List.eq_nil_of_length_eq_zero (by simpa using Eq.symm (not_not.mp hlen)))
    refine idles_emits (by simp [lowFirst, hrs, hss]) fun x hx => ?_
    obtain ⟨p, _, rfl⟩ := List.mem_map.mp hx
    dsimp only
    split <;> exact idles_emit _ _

theorem idles_addGroupExternal (minus : Bool) (e : ExternalRef) :
    (addGroupExternal rs minus e).Idles False := by
  match rs with
  | [] => exact absurd rfl hrs
  | [high, low] =>
    exact (idles_two (idles_emit _ _) (idles_emit _ _)).congr (and_self_iff)
  | [_] | _ :: _ :: _ :: _ => exact idles_fail _

theorem idles_addGroup (minus : Bool) (v : Value) :
    (addGroup rs minus v).Idles (∃ e, v.simplify.address? = some e ∧ e.constant? = some 0) := by
  induction hn : v.weight using Nat.strong_induction_on generalizing v minus with
  | _ n ih =>
    subst hn
    rw [addGroup]
    split
    · next k hk =>
      refine (idles_addGroupConst hrs _).congr ?_
      rw [offset_eq_zero, hk]
      simp [Value.address?, AddrExpr.constant?, AddrExpr.eval, Except.toOption]
    · next ss hss => exact (idles_addGroups hrs minus ss).congr (by simp [hss, Value.address?])
    · exact idles_fail _
    · split
      · next e he => exact (idles_addGroupAddress hrs minus e).congr (by simp [he])
      · next e he _ => exact (idles_addGroupExternal hrs minus e).congr (by simp [he])
      · next hnone _ =>
        split
        · split
          · next ts hts =>
            refine (idles_sequence fun t ht => ih _ t.2 _ _ rfl).congr
              (iff_of_false ?_ (by simp [hnone]))
            intro hall
            have haddress := Value.foldedTerms_address hts fun t ht => by
              obtain ⟨e, he, _⟩ := hall t ht
              simp [he]
            simp [hnone] at haddress
          · exact idles_fail _
        · exact idles_fail _

theorem idles_pairwise (m : Mnemonic) (ss : List Reg) : (pairwise m rs ss).Idles False := by
  unfold pairwise
  split
  · exact idles_fail _
  · next hlen =>
    have hss : ss ≠ [] := by
      rintro rfl
      exact hrs (List.eq_nil_of_length_eq_zero (by simpa using Eq.symm (not_not.mp hlen)))
    refine idles_emits (by simp [hrs, hss]) fun x hx => ?_
    obtain ⟨p, _, rfl⟩ := List.mem_map.mp hx
    exact idles_emit _ _

omit hrs in
theorem idles_maskGroup (m : Mnemonic) (neutral k : Int32) :
    (maskGroup m neutral rs k).Idles (∀ n < rs.length, constByte k n = neutral) := by
  refine (idles_sequence (R := fun _ => False) fun x _ => idles_emit _ _).congr ?_
  simp only [List.mem_filter, decide_eq_true_eq, imp_false, not_and_not_right]
  have hindex (n : Nat) : n < rs.length ↔ n ∈ (lowFirst rs).map Prod.fst := by
    rw [map_fst_lowFirst, List.mem_range]
  simp [hindex]

omit hrs in
theorem idles_shiftOnce (first carry : Mnemonic) :
    ∀ x ∈ shiftOnce first carry rs, x.Idles False := by
  intro x hx
  cases rs with
  | nil => cases hx
  | cons r rs =>
    rcases List.mem_cons.mp hx with rfl | hx
    · exact idles_emit _ _
    · obtain ⟨q, _, rfl⟩ := List.mem_map.mp hx
      exact idles_emit _ _

theorem shiftOnce_ne_nil (first carry : Mnemonic) : shiftOnce first carry rs ≠ [] := by
  cases rs with
  | nil => exact absurd rfl hrs
  | cons r rs => simp [shiftOnce]

theorem idles_shiftGroup (left : Bool) (v : Value) :
    (shiftGroup left rs v).Idles (v = .const 0) := by
  unfold shiftGroup
  split
  · next k =>
    split
    · next hk => exact (idles_warn _).congr (by simp [hk])
    · next hk =>
      split
      · exact idles_fail _
      · next hrange =>
        have hcount := toNatClampNeg_ne_zero (fun h => hrange (.inl h)) hk
        refine (idles_emits ?_ fun x hx => ?_).congr (by simp [hk])
        · intro hnil
          have honce := List.flatten_eq_nil_iff.mp hnil _ (List.mem_replicate.mpr ⟨hcount, rfl⟩)
          split at honce
          · exact shiftOnce_ne_nil (by simpa using hrs) _ _ honce
          · exact shiftOnce_ne_nil hrs _ _ honce
        · obtain ⟨once, honce, hx⟩ := List.mem_flatten.mp hx
          rw [List.eq_of_mem_replicate honce] at hx
          split at hx <;> exact idles_shiftOnce _ _ x hx
  · exact idles_fail _

theorem idles_updateGroup (op : ArithOp) (v : Value) :
    (updateGroup rs op v).Idles (Value.NoUpdate op (.group rs) v) := by
  unfold updateGroup
  split
  · exact idles_addGroup hrs false v
  · exact idles_addGroup hrs true v
  · next k hk =>
    exact (idles_maskGroup _ _ k).congr (by simp [Value.NoUpdate, Value.unmarked, hk])
  · next k hk =>
    exact (idles_maskGroup _ _ k).congr (by simp [Value.NoUpdate, Value.unmarked, hk])
  · next ss hss =>
    exact (idles_pairwise hrs _ ss).congr (by simp [Value.NoUpdate, Value.unmarked, hss])
  · next ss hss =>
    exact (idles_pairwise hrs _ ss).congr (by simp [Value.NoUpdate, Value.unmarked, hss])
  · exact idles_pairwise hrs _ _
  · exact idles_shiftGroup hrs _ _
  · exact idles_shiftGroup hrs _ _
  · exact idles_fail _

end

theorem idles_update {op : ArithOp} {target : Value} (ht : target.unmarked ≠ .group [])
    (v : Value) :
    (update op target v).Idles (Value.NoUpdate op target v) := by
  unfold update
  split
  · next r hr => exact (idles_updateReg r op v).congr (by simp [Value.NoUpdate, Value.unmarked, hr])
  · next rs hrs =>
    refine (idles_updateGroup (fun h => ht (h ▸ hrs)) op v).congr ?_
    simp [Value.NoUpdate, Value.unmarked, hrs]
  · exact idles_fail _

/-- Only an empty group is stepped without code. -/
theorem idles_step {op : StepOp} {v : Value} (hv : v.unmarked ≠ .group []) :
    (step op v).Idles False :=
  (idles_update hv _).congr (iff_false_intro Value.not_noUpdate_one)

theorem idles_copyReg (dest source : Reg) : (copyReg dest source).Idles (source = dest) := by
  unfold copyReg
  split
  · next h => exact idles_nothing.congr (iff_of_true trivial h)
  · next h => exact (idles_emit _ _).never h

theorem idles_loadConst (dest : Reg) (k : Int32) : (loadConst dest k).Idles False := by
  unfold loadConst
  split
  · exact idles_emit _ _
  · split
    · exact idles_emit _ _
    · exact idles_fail _

theorem idles_loadComplement (m : Mnemonic) (dest : Reg) (v : Value) :
    (loadComplement m dest v).Idles False := by
  unfold loadComplement
  split
  · exact (idles_two (idles_copyReg _ _) (idles_emit _ _)).congr (by simp)
  · exact idles_fail _

theorem idles_loadFlash (dest : Reg) (increment : Bool) :
    (loadFlash dest increment).Idles False := by
  unfold loadFlash
  split
  · split <;> exact idles_emit _ _
  · exact idles_emit _ _

theorem idles_load (dest : Reg) (v : Value) : (load dest v).Idles (Value.Kept (.reg dest) v) := by
  induction v with
  | reg r =>
    refine (idles_copyReg dest r).congr ⟨fun h => h ▸ .reg dest, fun h => ?_⟩
    cases h
    rfl
  | signed v ih =>
    refine ih.congr ⟨.signed, fun h => ?_⟩
    cases h
    assumption
  | binary => exact idles_fail _
  | const k => exact (idles_loadConst dest k).never (by rintro ⟨⟩)
  | mem i => cases i <;> exact (idles_emit _ _).never (by rintro ⟨⟩)
  | cell a => exact (idles_emit _ _).never (by rintro ⟨⟩)
  | flash increment => exact (idles_loadFlash dest increment).never (by rintro ⟨⟩)
  | io p =>
    rw [load]
    split
    · exact (idles_emit _ _).never (by rintro ⟨⟩)
    · exact idles_fail _
  | var x =>
    rw [load]
    split
    · exact (idles_emit _ _).never (by rintro ⟨⟩)
    · exact idles_fail _
  | external x =>
    rw [load]
    split
    · exact (idles_emit _ _).never (by rintro ⟨⟩)
    · exact idles_fail _
  | unary op v _ =>
    cases op with
    | neg | bitNot => exact (idles_loadComplement _ dest v).never (by rintro ⟨⟩)
    | _ => exact idles_fail _
  | _ => exact idles_fail _

/-- No register holds a whole group. -/
theorem not_gives_load_group {dest : Reg} {v : Value} {rs : List Reg} (hv : v.unmarked = .group rs)
    {is : List Instruction} : ¬ (load dest v).Gives is := by
  induction v with
  | group rs => exact not_gives_fail
  | signed v ih => exact ih hv
  | _ => cases hv

theorem idles_computeReg (dest : Reg) (chain : Value.Chain) :
    (computeReg dest chain).Idles (Value.Kept (.reg dest) chain.base ∧
      ∀ s ∈ chain.steps, Value.NoUpdate s.1 (.reg dest) s.2) := by
  unfold computeReg
  split
  · exact idles_fail _
  · split
    · exact idles_fail _
    · exact idles_cons (idles_load dest _)
        (idles_sequence fun s _ => idles_update (by simp [Value.unmarked]) _)

/-- A step before or after a use of its operand has code, since an empty group has no use. -/
theorem idles_step_use {op : StepOp} {v : Value} {use : Selection}
    (h : v.unmarked = .group [] → ∀ is, ¬ use.Gives is) :
    (sequence [step op v, use]).Idles False ∧ (sequence [use, step op v]).Idles False := by
  have hne {js ks : List Instruction} (hj : (step op v).Gives js) (hk : use.Gives ks) :
      js ≠ [] := by
    by_cases hv : v.unmarked = .group []
    · exact absurd hk (h hv ks)
    · exact fun hnil => (idles_step hv js hj).mp hnil
  refine ⟨fun is his => ?_, fun is his => ?_⟩
  · obtain ⟨js, ks, hj, hk, rfl⟩ := gives_sequence_cons.mp his
    simp [hne hj (gives_sequence_one.mp hk)]
  · obtain ⟨js, ks, hj, hk, rfl⟩ := gives_sequence_cons.mp his
    simp [hne (gives_sequence_one.mp hk) hj]

theorem idles_assignReg (dest : Reg) (v : Value) :
    (assignReg dest v).Idles (Value.Kept (.reg dest) v) := by
  have hempty {v : Value} (hv : v.unmarked = .group []) (is : List Instruction) :
      ¬ (assignReg dest v).Gives is := by
    cases v with
    | group | signed => exact not_gives_load_group hv
    | _ => cases hv
  cases v with
  | binary op a b =>
    rw [assignReg]
    by_cases hb : (Value.binary op a b).simplify.linearize.base.isBinary
    · rw [computeReg, if_pos hb]
      exact idles_fail _
    · refine (idles_computeReg dest _).congr ⟨fun h => .chain hb h.1 h.2, fun h => ?_⟩
      cases h
      exact ⟨‹_›, ‹_›⟩
  | unary op v =>
    cases op with
    | step op => exact (idles_step_use hempty).1.never (by rintro ⟨⟩)
    | _ => exact idles_load dest _
  | suffix op v => exact (idles_step_use hempty).2.never (by rintro ⟨⟩)
  | _ => exact idles_load dest _

section

variable {dest : List Reg} (hdest : dest ≠ [])

include hdest

/-- One instruction for each register. -/
theorem idles_highFirst {f : Nat × Reg → Selection} (h : ∀ p, (f p).Idles False) :
    (sequence ((highFirst dest).map f)).Idles False := by
  refine idles_emits (by simp [highFirst, hdest]) fun x hx => ?_
  obtain ⟨p, _, rfl⟩ := List.mem_map.mp hx
  exact h p

theorem idles_loadGroupConst (k : Int32) : (loadGroupConst dest k).Idles False := by
  unfold loadGroupConst
  split
  · exact idles_fail _
  · refine idles_highFirst hdest fun p => ?_
    dsimp only
    split <;> exact idles_emit _ _

theorem idles_loadAddress (e : AddrExpr) : (loadAddress dest e).Idles False := by
  unfold loadAddress
  split
  · exact idles_loadGroupConst hdest _
  · split
    · exact (idles_two (idles_emit _ _) (idles_emit _ _)).congr and_self_iff
    · exact idles_fail _

omit hdest in
theorem idles_loadExternalAddress (e : ExternalRef) :
    (loadExternalAddress dest e).Idles False := by
  unfold loadExternalAddress
  split
  · exact (idles_two (idles_emit _ _) (idles_emit _ _)).congr and_self_iff
  · exact idles_fail _

omit hdest in
theorem idles_moveGroup (source : List Reg) :
    (moveGroup dest source).Idles (source = dest) := by
  unfold moveGroup
  split
  · exact idles_fail _
  · next hlen =>
    split
    · next moves hmoves =>
      refine (idles_sequence (R := fun _ => False) fun m _ => ?_).congr ?_
      · unfold Move.select
        split <;> exact idles_emit _ _
      · rw [← List.eq_nil_iff_forall_not_mem]
        exact Move.plan_eq_nil hmoves (not_not.mp hlen)
    · exact idles_fail _

/-- The base of a chain for a group is no address. -/
theorem idles_assignGroup (v : Value) :
    (assignGroup dest v).Idles (Value.Kept (.group dest) v) := by
  have hempty {v : Value} (hv : v.unmarked = .group []) (is : List Instruction) :
      ¬ (assignGroup dest v).Gives is := by
    induction v with
    | group rs =>
      cases hv
      rw [assignGroup, moveGroup, if_pos (by simpa using hdest)]
      exact not_gives_fail
    | signed v ih =>
      rw [assignGroup]
      exact ih hv
    | _ => cases hv
  induction hn : v.weight using Nat.strong_induction_on generalizing v with
  | _ n ih =>
    subst hn
    cases v with
    | const k =>
      rw [assignGroup]
      exact (idles_loadGroupConst hdest k).never (by rintro ⟨⟩)
    | group source =>
      rw [assignGroup]
      refine (idles_moveGroup source).congr ⟨fun h => h ▸ .group _, fun h => ?_⟩
      cases h
      rfl
    | signed v =>
      rw [assignGroup]
      refine (ih v.weight (by simp) v rfl).congr ⟨.signed, fun h => ?_⟩
      cases h
      assumption
    | var x =>
      rw [assignGroup]
      refine Idles.never ?_ (by rintro ⟨⟩)
      split
      · exact idles_loadAddress hdest _
      · split
        · exact idles_highFirst hdest fun p => idles_emit _ _
        · exact idles_fail _
    | io p =>
      rw [assignGroup]
      refine Idles.never ?_ (by rintro ⟨⟩)
      split
      · exact idles_highFirst hdest fun p => idles_emit _ _
      · exact idles_fail _
    | external x =>
      rw [assignGroup]
      refine Idles.never ?_ (by rintro ⟨⟩)
      split
      · exact idles_loadExternalAddress _
      · split
        · exact idles_highFirst hdest fun p => idles_emit _ _
        · exact idles_fail _
    | label l | symbol l =>
      rw [assignGroup]
      exact (idles_loadAddress hdest _).never (by rintro ⟨⟩)
    | binary op a b =>
      rw [assignGroup]
      dsimp only
      split
      · next e he =>
        refine (idles_loadAddress hdest e).never fun h => ?_
        simp [h.address_eq_none.1] at he
      · next e _ he =>
        refine (idles_loadExternalAddress e).never fun h => ?_
        simp [h.address_eq_none.2] at he
      · exact idles_fail _
      · next chain hlight _ _ hchain =>
        obtain ⟨rfl, hb⟩ := Value.foldedChain_some hchain
        split
        · exact idles_fail _
        · refine (idles_cons (ih _ hlight _ rfl) (idles_sequence fun s _ =>
            idles_update (by simpa [Value.unmarked] using hdest) _)).congr ?_
          refine ⟨fun h => .chain hb h.1 h.2, fun h => ?_⟩
          cases h
          exact ⟨‹_›, ‹_›⟩
    | unary op v =>
      cases op with
      | step op =>
        rw [assignGroup]
        exact (idles_step_use hempty).1.never (by rintro ⟨⟩)
      | _ =>
        simp only [assignGroup]
        exact idles_fail _
    | suffix op v =>
      rw [assignGroup]
      exact (idles_step_use hempty).2.never (by rintro ⟨⟩)
    | _ =>
      simp only [assignGroup]
      exact idles_fail _

end

theorem idles_storeReg (target : Value) (source : Reg) : (storeReg target source).Idles False := by
  unfold storeReg
  split
  · exact idles_emit _ _
  · exact idles_emit _ _
  · split
    · exact idles_emit _ _
    · exact idles_fail _
  · split
    · exact idles_emit _ _
    · exact idles_fail _
  · exact idles_emit _ _
  · split
    · exact idles_emit _ _
    · exact idles_fail _
  · exact idles_fail _

theorem idles_storeGroup (target : Value) {source : List Reg} (hs : source ≠ []) :
    (storeGroup target source).Idles False := by
  unfold storeGroup
  split
  case h_1 | h_2 | h_3 =>
    split
    · exact idles_highFirst hs fun p => idles_emit _ _
    · exact idles_fail _
  all_goals exact idles_fail _

theorem idles_store (target : Value) {v : Value} (hv : v.Proper) :
    (store target v).Idles False := by
  induction v with
  | reg r => exact idles_storeReg target r
  | group rs => exact idles_storeGroup target hv
  | unary op v ih =>
    have hp : v.Proper := hv
    cases op with
    | step op => exact (idles_two (idles_step hp.unmarked_ne) (ih hp)).congr and_self_iff
    | _ => exact idles_fail _
  | suffix op v ih =>
    have hp : v.Proper := hv
    exact (idles_two (ih hp) (idles_step hp.unmarked_ne)).congr and_self_iff
  | signed v ih => exact ih hv
  | _ => exact idles_fail _

theorem idles_assignRegBit (r : Reg) (bit : Fin 8) (v : Value) :
    (assignRegBit r bit v).Idles False := by
  unfold assignRegBit
  split
  · exact idles_emit _ _
  · exact idles_emit _ _
  · exact (idles_two (idles_emit _ _) (idles_emit _ _)).congr and_self_iff
  · exact idles_fail _

theorem idles_assignStatusBit (bit : Nat) (v : Value) : (assignStatusBit bit v).Idles False := by
  unfold assignStatusBit
  split
  · exact idles_emit _ _
  · exact idles_emit _ _
  · exact idles_fail _

theorem idles_assignIoBit (address bit : Nat) (v : Value) :
    (assignIoBit address bit v).Idles False := by
  have hcopy (port : Operand) (s : Reg) (n : Fin 8) (first second : Mnemonic) :
      (copyToIoBit port (bitNumber bit) s n first second).Idles False :=
    idles_emits (by simp) (by simp [idles_emit])
  unfold assignIoBit
  split
  · exact idles_fail _
  · split
    · exact idles_emit _ _
    · exact idles_emit _ _
    · exact hcopy _ _ _ _ _
    · exact hcopy _ _ _ _ _
    · exact idles_fail _

theorem idles_assignSingle {target v : Value} (ht : target.Proper) (hv : v.Proper) :
    (assignSingle target v).Idles (Value.Kept target.unmarked v) := by
  have hother {s : Selection} {t : Value} (hs : s.Idles False) (hreg : ∀ r, t ≠ .reg r)
      (hgroup : ∀ rs, t ≠ .group rs) : s.Idles (Value.Kept t v) :=
    hs.never fun h => h.isRegisters.elim (fun ⟨r, hr⟩ => hreg r hr) fun ⟨rs, hrs⟩ => hgroup rs hrs
  unfold assignSingle
  cases hu : target.unmarked with
  | reg r => exact idles_assignReg r v
  | group rs => exact idles_assignGroup (fun h => ht.unmarked_ne (h ▸ hu)) v
  | regBit r bit => exact hother (idles_assignRegBit r bit v) (by simp) (by simp)
  | statusBit bit => exact hother (idles_assignStatusBit bit v) (by simp) (by simp)
  | ioBit address bit => exact hother (idles_assignIoBit address bit v) (by simp) (by simp)
  | symbol l => exact idles_fail _
  | _ => exact hother (idles_store _ hv) (by simp) (by simp)

theorem idles_assign {target v : Value} (ht : target.Proper) (hv : v.Proper) :
    (assign target v).Idles (Value.NoAssign target v) := by
  induction v generalizing target with
  | assign op t w iht ihw =>
    cases op with
    | set =>
      refine (idles_two (ihw hv.1 hv.2) (iht ht hv.1)).congr ⟨fun h => .set h.1 h.2, fun h => ?_⟩
      cases h with
      | kept h =>
        generalize target.unmarked = u at h
        cases h
      | set hw ht => exact ⟨hw, ht⟩
    | update op =>
      refine (idles_two (idles_update hv.1.unmarked_ne w) (iht ht hv.1)).congr
        ⟨fun h => .update h.1 h.2, fun h => ?_⟩
      cases h with
      | kept h =>
        generalize target.unmarked = u at h
        cases h
      | update hw ht => exact ⟨hw, ht⟩
  | _ =>
    refine (idles_assignSingle ht hv).congr ⟨.kept, fun h => ?_⟩
    cases h
    assumption

/-- The assignments that have no code. -/
theorem idles_assignBy {op : AssignOp} {target v : Value} (ht : target.Proper) (hv : v.Proper) :
    (assignBy op target v).Idles (Value.NoAssignBy op target v) := by
  cases op with
  | set => exact idles_assign ht hv
  | update op => exact idles_update ht.unmarked_ne v

end Selection

end Avr
