import Avr.Proofs.CodePaths

namespace Avr

theorem Mnemonic.isJump_of_forms {m : Mnemonic}
    (h : m.forms = [[.rel7]] ∨ m.forms = [[.statusBit, .rel7]]) : m.isJump := by
  cases m <;> first | rfl | (rcases h with h | h <;> cases h)

namespace Selection

/-- Has instructions that go straight on and leave the stack alone. -/
def IsStraight (x : Selection) : Prop :=
  ∀ is, x.Gives is → ∀ i ∈ is, i.mnemonic.isStraight ∧ i.mnemonic.isStack = false

/-- Two selections that are the same but for the target of their jump. -/
inductive JumpPair (t u : LabelRef) : Selection → Selection → Prop
  | fault (e : SemanticError) : JumpPair t u (fail e) (fail e)
  | never : JumpPair t u nothing nothing
  | jump {m : Mnemonic} (mnemonic : m = .rjmp ∨ m.forms = [[.rel7]]) :
    JumpPair t u (jumpTo m t) (jumpTo m u)
  | flag {m : Mnemonic} (mnemonic : m.forms = [[.statusBit, .rel7]]) (k : Int32) :
    JumpPair t u (emit m [.number k, .label t]) (emit m [.number k, .label u])
  | after {first x y : Selection} (straight : first.IsStraight) (jump : JumpPair t u x y) :
    JumpPair t u (sequence [first, x]) (sequence [first, y])
  | skip {m : Mnemonic} (mnemonic : m.isSkip) (operands : List Operand) :
    JumpPair t u (sequence [emit m operands, jumpTo .rjmp t])
      (sequence [emit m operands, jumpTo .rjmp u])

variable {t u : LabelRef}

theorem isStraight_emit {m : Mnemonic} (hstraight : m.isStraight) (hstill : m.isStack = false)
    (operands : List Operand) : (emit m operands).IsStraight := by
  intro is h i hi
  obtain rfl := gives_emit h
  obtain rfl := List.mem_singleton.mp hi
  exact ⟨hstraight, hstill⟩

theorem isStraight_sequence {xs : List Selection} (h : ∀ x ∈ xs, x.IsStraight) :
    (sequence xs).IsStraight := by
  induction xs with
  | nil =>
    intro is his i hi
    obtain rfl := gives_nothing his
    cases hi
  | cons x xs ih =>
    intro is his i hi
    obtain ⟨js, ks, hjs, hks, rfl⟩ := gives_sequence_cons.mp his
    rcases List.mem_append.mp hi with hi | hi
    · exact h x (by simp) js hjs i hi
    · exact ih (fun x hx => h x (by simp [hx])) ks hks i hi

theorem isStraight_compareBytes (ls rs : List Reg) : (compareBytes ls rs).IsStraight := by
  refine isStraight_sequence fun x hx => ?_
  obtain ⟨⟨⟨n, l⟩, r⟩, -, rfl⟩ := List.mem_map.mp hx
  dsimp only
  split
  · exact isStraight_emit rfl rfl _
  · exact isStraight_emit rfl rfl _

theorem pair_branch {o : Option Mnemonic} (h : ∀ m ∈ o, m.forms = [[.rel7]]) :
    JumpPair t u (branch o t) (branch o u) := by
  cases o with
  | none => exact .fault _
  | some m => exact .jump (.inr (h m rfl))

theorem forms_branchOn (op : RelOp) (signed : Bool) :
    ∀ m ∈ branchOn op signed, m.forms = [[.rel7]] := by
  intro m hm
  cases op <;> cases signed <;> cases hm <;> rfl

theorem forms_branchOnSign (op : RelOp) (signed : Bool) :
    ∀ m ∈ branchOnSign op signed, m.forms = [[.rel7]] := by
  intro m hm
  cases op <;> cases signed <;> cases hm <;> rfl

theorem pair_compareConst (op : RelOp) (r : Reg) (k : Int32) (signed : Bool) :
    JumpPair t u (compareConst op r k signed t) (compareConst op r k signed u) := by
  unfold compareConst
  split
  split
  · exact .after (isStraight_emit rfl rfl _) (pair_branch (forms_branchOnSign _ _))
  · exact .after (isStraight_emit rfl rfl _) (pair_branch (forms_branchOn _ _))

theorem pair_compareRegs (op : RelOp) (ls rs : List Reg) (signed : Bool) :
    JumpPair t u (compareRegs op ls rs signed t) (compareRegs op ls rs signed u) := by
  unfold compareRegs
  split
  · exact .skip rfl _
  · exact .after (isStraight_compareBytes _ _) (pair_branch (forms_branchOn _ _))
  · exact .after (isStraight_compareBytes _ _) (pair_branch (forms_branchOn _ _))
  · exact .after (isStraight_compareBytes _ _) (pair_branch (forms_branchOn _ _))

theorem pair_compare (op : RelOp) (a b : Value) (signed : Bool) :
    JumpPair t u (compare op a b signed t) (compare op a b signed u) := by
  unfold compare
  split
  · exact pair_compareConst _ _ _ _
  · exact pair_compareConst _ _ _ _
  · exact pair_compareRegs _ _ _ _
  · split
    · exact pair_compareRegs _ _ _ _
    · exact .fault _
  · exact .fault _
  · exact .fault _
  · exact .fault _

/-- The target shows nowhere else, whatever the condition is. -/
theorem pair_jumpIf (truth signed : Bool) (v : Value) :
    JumpPair t u (jumpIf truth signed t v) (jumpIf truth signed u v) := by
  induction v generalizing truth signed with
  | signed v ih => exact ih truth true
  | unary op v ih =>
    cases op with
    | not =>
      cases truth with
      | false => exact .fault _
      | true => exact ih false signed
    | _ => exact .fault _
  | binary op a b =>
    cases op with
    | rel op => exact pair_compare _ a b signed
    | _ => exact .fault _
  | regBit => cases truth <;> exact .skip rfl _
  | ioBit =>
    simp only [jumpIf]
    split
    · exact .fault _
    · cases truth <;> exact .skip rfl _
  | statusBit => cases truth <;> exact .flag rfl _
  | reg => cases truth <;> exact .after (isStraight_emit rfl rfl _) (.jump (.inr rfl))
  | const =>
    simp only [jumpIf]
    split
    · exact .jump (.inl rfl)
    · exact .never
  | _ => exact .fault _

end Selection

end Avr
