import Avr.Proofs.ControlMachine
import Avr.Proofs.Numbers

namespace Avr

namespace RelOp

/-- The relation on whole numbers. -/
def relates (op : RelOp) (a b : Int) : Bool :=
  match op with
  | eq => a = b
  | ne => a ≠ b
  | lt => a < b
  | gt => b < a
  | le => a ≤ b
  | ge => b ≤ a

theorem relates_inverse (op : RelOp) (a b : Int) : op.inverse.relates a b = !op.relates a b := by
  cases op <;> grind [inverse, relates]

end RelOp

namespace Cpu

/-- The number in a group, as two's complement or not. -/
def quantity (s : Cpu) (signed : Bool) (rs : List Reg) : Int :=
  if signed then (s.bits rs.length rs).toInt else s.number rs

/-- The flags after a comparison from the low byte up. -/
def comparison (s : Cpu) : List Reg → List Reg → Status
  | l :: ls, r :: rs => { s with status := s.comparison ls rs }.compareByte l r (!ls.isEmpty)
  | _, _ => s.status

theorem number_cons (s : Cpu) (r : Reg) (rs : List Reg) :
    s.number (r :: rs) = s.number rs + 256 ^ rs.length * (s.regs r).toNat := by
  simp [number, Ripple.little_append]

/-- The high byte alone tells the sign. -/
theorem quantity_cons (s : Cpu) (r : Reg) (rs : List Reg) :
    s.quantity true (r :: rs) = s.number rs + (256 ^ rs.length : Nat) * (s.regs r).toInt := by
  have hlt := s.number_lt rs
  have hr := (s.regs r).isLt
  have hbits : (s.bits (r :: rs).length (r :: rs)).toNat = s.number (r :: rs) := toNat_bits rfl s
  have hpow : 2 ^ (8 * (r :: rs).length) = 256 * 256 ^ rs.length := by
    rw [Nat.pow_mul, List.length_cons, Nat.pow_succ, Nat.mul_comm]
  rw [quantity, if_pos rfl, BitVec.toInt_eq_toNat_cond, BitVec.toInt_eq_toNat_cond, hbits, hpow,
    number_cons]
  generalize 256 ^ rs.length = n at *
  generalize (s.regs r).toNat = b at *
  by_cases hb : b < 128
  · have hn : n * b ≤ n * 127 := Nat.mul_le_mul_left n (by omega)
    rw [if_pos (by omega), if_pos (by omega)]
    push_cast
    rfl
  · have hn : n * 128 ≤ n * b := Nat.mul_le_mul_left n (by omega)
    rw [if_neg (by omega), if_neg (by omega)]
    push_cast
    ring

end Cpu

namespace Status

variable (s : Status) (a b : Byte) (c chained : Bool)

theorem difference_zero (hc : chained → s.zero → c = false) (hn : chained = false → c = false) :
    (s.difference a b c chained).zero = (decide (a = b) && (!chained || s.zero)) := by
  by_cases hz : (!chained || s.zero) = true
  · have hfalse : c = false := by grind
    simp [difference, hfalse, hz, BitVec.sub_eq_iff_eq_add]
  · simp [difference, hz]

theorem difference_sign :
    (s.difference a b c chained).sign = decide (a.toInt < b.toInt + c.toNat) := by
  have ha := a.isLt
  have hb := b.isLt
  have hc := c.toNat_le
  have hlt := (a - b - BitVec.ofNat 8 c.toNat).isLt
  have hr : ((a - b - BitVec.ofNat 8 c.toNat).toNat + b.toNat + c.toNat) % 256 = a.toNat := by
    simp only [BitVec.toNat_sub, BitVec.toNat_ofNat]
    omega
  simp only [difference, result, BitVec.msb_eq_decide, BitVec.toInt_eq_toNat_cond]
  generalize (a - b - BitVec.ofNat 8 c.toNat).toNat = r at hr hlt ⊢
  grind

end Status

namespace Cpu

variable (s : Cpu)

/-- Of two numbers with a high part each, the high parts decide, with what the low parts carry. -/
theorem add_mul_lt_iff {m k n : Nat} {x y : Int} (hm : m < n) (hk : k < n) :
    (m : Int) + n * x < k + n * y ↔ x < y + (decide (m < k)).toNat := by
  rcases Int.lt_trichotomy x y with hlt | rfl | hgt
  · have hmul : (n : Int) * x + n ≤ n * y := by
      rw [← mul_add_one]
      exact Int.mul_le_mul_of_nonneg_left hlt (by omega)
    exact iff_of_true (by omega) (by omega)
  · by_cases h : m < k
    · simp [h]
    · simp [h]
  · have hmul : (n : Int) * y + n ≤ n * x := by
      rw [← mul_add_one]
      exact Int.mul_le_mul_of_nonneg_left hgt (by omega)
    have hle := (decide (m < k)).toNat_le
    exact iff_of_false (by omega) (by omega)

theorem add_mul_eq_iff {m k n a b : Nat} (hm : m < n) (hk : k < n) :
    m + n * a = k + n * b ↔ a = b ∧ m = k := by
  constructor
  · intro h
    have hmod := congrArg (· % n) h
    simp only [Nat.add_mul_mod_self_left, Nat.mod_eq_of_lt hm, Nat.mod_eq_of_lt hk] at hmod
    subst hmod
    exact ⟨Nat.eq_of_mul_eq_mul_left (by omega) (Nat.add_left_cancel h), rfl⟩
  · rintro ⟨rfl, rfl⟩
    rfl

/-- What the flags say after a comparison of two groups. -/
theorem comparison_spec {ls rs : List Reg} (hlen : ls.length = rs.length) (hne : ls ≠ []) :
    (s.comparison ls rs).zero = decide (s.number ls = s.number rs) ∧
      (s.comparison ls rs).carry = decide (s.number ls < s.number rs) ∧
      (s.comparison ls rs).sign = decide (s.quantity true ls < s.quantity true rs) := by
  induction ls generalizing rs with
  | nil => exact (hne rfl).elim
  | cons l ls ih =>
    obtain ⟨r, rs, rfl⟩ := List.exists_cons_of_length_eq_add_one hlen.symm
    simp only [List.length_cons, Nat.add_right_cancel_iff] at hlen
    -- The bytes below are equal, or less, or there are none; the first byte takes no carry.
    have htail : (!(!ls.isEmpty) || (s.comparison ls rs).zero) =
          decide (s.number ls = s.number rs) ∧
        (!ls.isEmpty && (s.comparison ls rs).carry) = decide (s.number ls < s.number rs) := by
      by_cases hls : ls = []
      · subst hls
        obtain rfl := List.eq_nil_of_length_eq_zero hlen.symm
        simp
      · obtain ⟨hz, hc, -⟩ := ih hlen hls
        simp [hls, hz, hc]
    have hl := s.number_lt ls
    have hr := s.number_lt rs
    have hls := (s.regs l).isLt
    have hrs := (s.regs r).isLt
    rw [hlen] at hl
    simp only [comparison, compareByte, htail.2]
    refine ⟨?_, ?_, ?_⟩
    · rw [Status.difference_zero _ _ _ _ _ (by grind) (by grind), htail.1, ← Bool.decide_and,
        number_cons, number_cons, hlen, decide_eq_decide, add_mul_eq_iff hl hr, ← BitVec.toNat_eq]
    · change decide (_ < _ + _) = _
      have h := add_mul_lt_iff (x := (s.regs l).toNat) (y := (s.regs r).toNat) hl hr
      rw [number_cons, number_cons, hlen, decide_eq_decide]
      exact_mod_cast h.symm
    · rw [Status.difference_sign, quantity_cons, quantity_cons, hlen, decide_eq_decide]
      exact (add_mul_lt_iff hl hr).symm

/-- Groups of one width hold equal numbers however these are read. -/
theorem quantity_inj {signed : Bool} {ls rs : List Reg} (hlen : ls.length = rs.length) :
    s.quantity signed ls = s.quantity signed rs ↔ s.number ls = s.number rs := by
  cases signed with
  | true =>
    simp only [quantity, if_true]
    rw [hlen, BitVec.toInt_inj, BitVec.toNat_eq, toNat_bits hlen, toNat_bits rfl]
  | false => simp [quantity]

/-- The relation between the numbers in two groups. -/
def compares (s : Cpu) (op : RelOp) (signed : Bool) (ls rs : List Reg) : Bool :=
  op.relates (s.quantity signed ls) (s.quantity signed rs)

/-- The flags that asking for the relation leaves. Two unequal registers are told apart by a skip,
and `>` and `<=` compare the other way round. -/
def compareFlags (s : Cpu) (op : RelOp) (ls rs : List Reg) : Status :=
  match op, ls, rs with
  | .ne, [_], [_] => s.status
  | .gt, _, _ | .le, _, _ => s.comparison rs ls
  | _, _, _ => s.comparison ls rs

end Cpu

namespace Value

/-- The groups that are compared. -/
def comparison? : Value → Option (RelOp × List Reg × List Reg)
  | binary (.rel op) (reg l) (reg r) => some (op, [l], [r])
  | binary (.rel op) (group ls) (group rs) => some (op, ls, rs)
  | _ => none

/-- A comparison of groups of one width. -/
def isComparison (v : Value) : Bool :=
  v.comparison?.any fun (_, ls, rs) => !ls.isEmpty && ls.length = rs.length

/-- Conditions on registers and flags. -/
def isCondition : Value → Bool
  | unary .not v => v.isCondition
  | binary .both a b | binary .either a b => a.isCondition && b.isCondition
  | reg _ | regBit .. => true
  | statusBit bit => bit < 8
  | signed v | v => v.isComparison

/-- Whether a comparison holds, and the flags that are left when it is asked for being `truth`. -/
def askComparison (truth signed : Bool) (v : Value) (s : Cpu) : Bool × Status :=
  match v.comparison? with
  | some (op, ls, rs) =>
    (s.compares op signed ls rs, s.compareFlags (if truth then op else op.inverse) ls rs)
  | none => (false, s.status)

/-- Whether a condition holds, and the flags that are left when it is asked for being `truth`.
Operands are asked from left to right, and only as far as the outcome needs: `&&` asks whether its
left operand fails, and `||` whether its left operand holds. -/
def ask (truth : Bool) (v : Value) (s : Cpu) : Bool × Status :=
  match v with
  | unary .not v =>
    let (holds, flags) := v.ask (!truth) s
    (!holds, flags)
  | binary .both a b =>
    let (holds, flags) := a.ask false s
    if holds then b.ask truth { s with status := flags } else (false, flags)
  | binary .either a b =>
    let (holds, flags) := a.ask true s
    if holds then (true, flags) else b.ask truth { s with status := flags }
  | reg r => (s.regs r ≠ 0, s.testByte r)
  | regBit r bit => ((s.regs r).getLsbD bit, s.status)
  | statusBit bit => (s.status.bit bit, s.status)
  | signed v => v.askComparison truth true s
  | v => v.askComparison truth false s

end Value

namespace Selection

theorem lowFirst_cons (r : Reg) (rs : List Reg) :
    lowFirst (r :: rs) = lowFirst rs ++ [(rs.length, r)] := by
  simp [lowFirst, List.range_succ, List.zip_append]

/-- The high bytes are compared last. -/
theorem gives_compareBytes_cons {l r : Reg} {ls rs : List Reg} {is : List Instruction}
    (hlen : ls.length = rs.length) (h : (compareBytes (l :: ls) (r :: rs)).Gives is) :
    ∃ js, (compareBytes ls rs).Gives js ∧ is = js ++
      [{ mnemonic := if ls.length = 0 then .cp else .cpc, operands := [.reg l, .reg r] }] := by
  have hzip : (lowFirst (l :: ls)).zip (r :: rs).reverse =
      (lowFirst ls).zip rs.reverse ++ [((ls.length, l), r)] := by
    rw [lowFirst_cons, List.reverse_cons, List.zip_append (by simp [lowFirst, hlen])]
    rfl
  rw [compareBytes, hzip, List.map_append, gives_sequence_append] at h
  obtain ⟨js, ks, hj, hk, rfl⟩ := h
  rw [List.map_singleton, gives_sequence_one] at hk
  exact ⟨js, hj, by rw [gives_emit hk]⟩

theorem gives_compareBytes {ls rs : List Reg} {is : List Instruction}
    (hlen : ls.length = rs.length) (h : (compareBytes ls rs).Gives is) :
    (∀ i ∈ is, i.mnemonic.isStraight ∧ ∀ o ∈ i.operands, o.isSymbolic = false) ∧
      ∀ (effect : Effect μ) (s : State μ), is.foldlM (fun s i => i.perform effect s) s =
        some (s.withStatus (s.cpu.comparison ls rs)) := by
  induction ls generalizing rs is with
  | nil =>
    obtain rfl := List.eq_nil_of_length_eq_zero hlen.symm
    obtain rfl := gives_nothing h
    exact ⟨by simp, fun _ _ => rfl⟩
  | cons l ls ih =>
    obtain ⟨r, rs, rfl⟩ := List.exists_cons_of_length_eq_add_one hlen.symm
    simp only [List.length_cons, Nat.add_right_cancel_iff] at hlen
    obtain ⟨js, hj, rfl⟩ := gives_compareBytes_cons hlen h
    obtain ⟨hplain, hrun⟩ := ih hlen hj
    refine ⟨?_, ?_⟩
    · intro i hi
      rcases List.mem_append.mp hi with hi | hi
      · exact hplain i hi
      · obtain rfl := List.mem_singleton.mp hi
        refine ⟨?_, by simp [Operand.isSymbolic]⟩
        dsimp only
        split <;> rfl
    · intro effect s
      rw [List.foldlM_append, hrun effect s]
      cases ls with
      | nil => rfl
      | cons => rfl

theorem jumpIf_comparison {v : Value} {op : RelOp} {ls rs : List Reg} {truth signed : Bool}
    {target : LabelRef} (h : v.comparison? = some (op, ls, rs)) (hlen : ls.length = rs.length) :
    jumpIf truth signed target v =
      compareRegs (if truth then op else op.inverse) ls rs signed target := by
  unfold Value.comparison? at h
  split at h
  · cases h
    rfl
  · cases h
    rw [jumpIf, compare, if_pos hlen]
  · cases h

/-- The flag of a branch tells the relation. -/
theorem branchOn_spec {op : RelOp} {signed : Bool} {mnemonic : Mnemonic}
    (h : branchOn op signed = some mnemonic) :
    ∃ flag value, mnemonic.branch? = some (flag, value) ∧
      ∀ (s : Cpu) (ls rs : List Reg), ls.length = rs.length → ls ≠ [] →
        ((s.comparison ls rs).bit flag = value ↔ s.compares op signed ls rs) := by
  cases op with
  | eq =>
    cases h
    refine ⟨1, true, rfl, fun s ls rs hlen hne => ?_⟩
    simp [Status.bit, (s.comparison_spec hlen hne).1, Cpu.compares, RelOp.relates,
      s.quantity_inj hlen]
  | ne =>
    cases h
    refine ⟨1, false, rfl, fun s ls rs hlen hne => ?_⟩
    simp [Status.bit, (s.comparison_spec hlen hne).1, Cpu.compares, RelOp.relates,
      s.quantity_inj hlen]
  | lt =>
    cases signed with
    | true =>
      cases h
      refine ⟨4, true, rfl, fun s ls rs hlen hne => ?_⟩
      simp [Status.bit, (s.comparison_spec hlen hne).2.2, Cpu.compares, RelOp.relates]
    | false =>
      cases h
      refine ⟨0, true, rfl, fun s ls rs hlen hne => ?_⟩
      simp [Status.bit, (s.comparison_spec hlen hne).2.1, Cpu.compares, RelOp.relates, Cpu.quantity]
  | ge =>
    cases signed with
    | true =>
      cases h
      refine ⟨4, false, rfl, fun s ls rs hlen hne => ?_⟩
      simp [Status.bit, (s.comparison_spec hlen hne).2.2, Cpu.compares, RelOp.relates]
    | false =>
      cases h
      refine ⟨0, false, rfl, fun s ls rs hlen hne => ?_⟩
      simp [Status.bit, (s.comparison_spec hlen hne).2.1, Cpu.compares, RelOp.relates, Cpu.quantity]
  | gt => cases h
  | le => cases h

end Selection

namespace Flash

/-- From `a` on, the code asks a question, and goes to `target` if the answer is `truth` and to
`stop` if not. -/
def Branches (m : Flash μ) (a stop target : Nat) (truth : Bool) (ask : Cpu → Bool × Status) :
    Prop :=
  ∀ s : State μ, ∃ k, 0 < k ∧ m.run k ⟨a, s⟩ =
    some ⟨if (ask s.cpu).1 = truth then target else stop, s.withStatus (ask s.cpu).2⟩

variable {m : Flash μ} {a b stop target : Nat} {truth : Bool}

namespace Branches

/-- The same question in other words. -/
theorem congr {truth' : Bool} {ask ask' : Cpu → Bool × Status}
    (h : m.Branches a stop target truth ask)
    (hask : ∀ s, ((ask s).1 = truth ↔ (ask' s).1 = truth') ∧ (ask s).2 = (ask' s).2) :
    m.Branches a stop target truth' ask' := by
  intro s
  obtain ⟨k, hk, hrun⟩ := h s
  obtain ⟨htruth, hflags⟩ := hask s.cpu
  refine ⟨k, hk, ?_⟩
  rw [hrun, hflags]
  simp only [htruth]

theorem both {v w : Value}
    (hv : m.Branches a b (if truth then stop else target) false (v.ask false))
    (hw : m.Branches b stop target truth (w.ask truth)) :
    m.Branches a stop target truth ((Value.binary .both v w).ask truth) := by
  intro s
  obtain ⟨j, hj, hrun⟩ := hv s
  rw [Value.ask]
  generalize v.ask false s.cpu = answer at hrun ⊢
  obtain ⟨holds, flags⟩ := answer
  cases holds with
  | false =>
    refine ⟨j, hj, hrun.trans ?_⟩
    cases truth <;> rfl
  | true =>
    obtain ⟨k, hk, hrun'⟩ := hw (s.withStatus flags)
    exact ⟨j + k, by omega, Machine.run_trans hrun hrun'⟩

theorem either {v w : Value}
    (hv : m.Branches a b (if truth then target else stop) true (v.ask true))
    (hw : m.Branches b stop target truth (w.ask truth)) :
    m.Branches a stop target truth ((Value.binary .either v w).ask truth) := by
  intro s
  obtain ⟨j, hj, hrun⟩ := hv s
  rw [Value.ask]
  generalize v.ask true s.cpu = answer at hrun ⊢
  obtain ⟨holds, flags⟩ := answer
  cases holds with
  | true =>
    refine ⟨j, hj, hrun.trans ?_⟩
    cases truth <;> rfl
  | false =>
    obtain ⟨k, hk, hrun'⟩ := hw (s.withStatus flags)
    exact ⟨j + k, by omega, Machine.run_trans hrun hrun'⟩

theorem not {v : Value} (h : m.Branches a stop target (!truth) (v.ask !truth)) :
    m.Branches a stop target truth ((Value.unary .not v).ask truth) := by
  refine h.congr fun s => ?_
  rw [Value.ask]
  cases truth <;> simp

end Branches

section

variable {l : Location} {c : Option String} {name : String}

/-- A skip over a jump, which is taken unless the test comes out. -/
theorem branches_skip {i : Instruction} {test : Cpu → Bool} (hcontrol : i.control = .skip test)
    (hplain : ∀ o ∈ i.operands, o.isSymbolic = false)
    (h : m.Loaded a (Emission.ofCode c l
      [i, { mnemonic := .rjmp, operands := [.label (.plain name)] }]))
    (ht : m.Target name target) :
    m.Branches a (a + i.size + 2) target false fun s => (test s, s.status) := by
  simp only [Emission.ofCode_cons, Emission.ofCode_nil, loaded_instruction] at h
  obtain ⟨-, hi, ha, hjump, -⟩ := h
  intro s
  have hskip := step_skip (s := s) hi hplain hcontrol hjump
  cases htest : test s.cpu with
  | true =>
    refine ⟨1, by omega, Machine.run_one ?_⟩
    rw [hskip]
    simp only [htest]
    rfl
  | false =>
    refine ⟨2, by omega, Machine.run_trans (Machine.run_one hskip) (Machine.run_one ?_)⟩
    simp only [htest, Bool.false_eq_true, if_false]
    exact step_rjmp ha hjump ht

/-- Code that only sets flags, and a branch on one of them. -/
theorem branches_straight {is : List Instruction} {mnemonic : Mnemonic} {flag : Nat} {value : Bool}
    {f : Cpu → Status}
    (hplain : ∀ i ∈ is, i.mnemonic.isStraight ∧ ∀ o ∈ i.operands, o.isSymbolic = false)
    (hflags : ∀ s : State μ, is.foldlM (fun s i => i.perform m.effect s) s =
      some (s.withStatus (f s.cpu)))
    (hbranch : mnemonic.branch? = some (flag, value))
    (h : m.Loaded a (Emission.ofCode c l
      (is ++ [{ mnemonic, operands := [.label (.plain name)] }])))
    (ht : m.Target name target) :
    m.Branches a (a + Emission.sizes (Emission.ofCode c l is) + 2) target value fun s =>
      ((f s).bit flag, f s) := by
  rw [Emission.ofCode_append, loaded_append] at h
  obtain ⟨hload, hjump⟩ := h
  obtain ⟨ha, hjump, -⟩ := loaded_instruction.mp hjump
  intro s
  have hrun := run_straight hload (fun i hi => (hplain i hi).2) (fun i hi => (hplain i hi).1)
    (hflags s)
  have hstep := step_branch (s := s.withStatus (f s.cpu)) ha hjump hbranch ht
  exact ⟨is.length + 1, by omega, Machine.run_trans hrun (Machine.run_one hstep)⟩

/-- The bytes of two groups are compared, and then comes a branch. -/
theorem branches_compareBytes {op : RelOp} {ls rs : List Reg} {signed : Bool}
    {is : List Instruction} (hlen : ls.length = rs.length) (hne : ls ≠ [])
    (hgives : (Selection.sequence [Selection.compareBytes ls rs,
      Selection.branch (Selection.branchOn op signed) (.plain name)]).Gives is)
    (h : m.Loaded a (Emission.ofCode c l is)) (ht : m.Target name target) :
    m.Branches a (a + Emission.sizes (Emission.ofCode c l is)) target true fun s =>
      (s.compares op signed ls rs, s.comparison ls rs) := by
  rw [Selection.gives_sequence_cons] at hgives
  obtain ⟨js, ks, hjs, hks, rfl⟩ := hgives
  rw [Selection.gives_sequence_one] at hks
  cases hop : Selection.branchOn op signed with
  | none =>
    rw [hop] at hks
    exact (Selection.not_gives_fail hks).elim
  | some mnemonic =>
    rw [hop] at hks
    obtain rfl := Selection.gives_emit hks
    obtain ⟨flag, value, hbranch, hspec⟩ := Selection.branchOn_spec hop
    obtain ⟨hplain, hflags⟩ := Selection.gives_compareBytes hlen hjs
    have hsize : mnemonic.size = 2 := by cases mnemonic <;> cases hbranch <;> rfl
    have hbranches := branches_straight (f := fun s => s.comparison ls rs) hplain
      (hflags m.effect) hbranch h ht
    simp only [Emission.ofCode_append, Emission.sizes_append, Emission.ofCode_cons,
      Emission.ofCode_nil, Emission.sizes_instruction, Emission.sizes_nil, Instruction.size,
      Instruction.withComment, hsize]
    exact hbranches.congr fun s => ⟨hspec s ls rs hlen hne, rfl⟩

/-- The jump is taken if the relation holds. -/
theorem branches_compareRegs {op : RelOp} {ls rs : List Reg} {signed : Bool}
    {is : List Instruction} (hlen : ls.length = rs.length) (hne : ls ≠ [])
    (hgives : (Selection.compareRegs op ls rs signed (.plain name)).Gives is)
    (h : m.Loaded a (Emission.ofCode c l is)) (ht : m.Target name target) :
    m.Branches a (a + Emission.sizes (Emission.ofCode c l is)) target true fun s =>
      (s.compares op signed ls rs, s.compareFlags op ls rs) := by
  have hne' : rs ≠ [] := by
    rintro rfl
    exact hne (List.eq_nil_of_length_eq_zero hlen)
  unfold Selection.compareRegs at hgives
  split at hgives
  · next l r =>
    simp only [Selection.gives_sequence_cons, Selection.gives_sequence_nil] at hgives
    obtain ⟨_, _, hskip, ⟨_, _, hjump, rfl, rfl⟩, rfl⟩ := hgives
    obtain rfl := Selection.gives_emit hskip
    obtain rfl := Selection.gives_emit hjump
    have hbranches := branches_skip rfl (by simp [Operand.isSymbolic]) h ht
    refine hbranches.congr fun s => ⟨?_, rfl⟩
    simp [Cpu.compares, RelOp.relates, s.quantity_inj hlen, Cpu.number, BitVec.toNat_eq]
  · exact branches_compareBytes hlen.symm hne' hgives h ht
  · exact branches_compareBytes hlen.symm hne' hgives h ht
  · next hsingle hgt hle =>
    have hflags (s : Cpu) : s.compareFlags op ls rs = s.comparison ls rs := by
      unfold Cpu.compareFlags
      split <;> simp_all
    simp only [hflags]
    exact branches_compareBytes hlen hne hgives h ht

theorem branches_comparison {v : Value} {signed : Bool} {is : List Instruction}
    (hv : v.isComparison) (hgives : (Selection.jumpIf truth signed (.plain name) v).Gives is)
    (h : m.Loaded a (Emission.ofCode c l is)) (ht : m.Target name target) :
    m.Branches a (a + Emission.sizes (Emission.ofCode c l is)) target truth
      (v.askComparison truth signed) := by
  obtain ⟨⟨op, ls, rs⟩, hcomparison, hwidth⟩ := (Option.any_eq_true _ _).mp hv
  simp only [Bool.and_eq_true, Bool.not_eq_true', List.isEmpty_eq_false_iff, decide_eq_true_eq]
    at hwidth
  rw [Selection.jumpIf_comparison hcomparison hwidth.2] at hgives
  have hbranches := branches_compareRegs hwidth.2 hwidth.1 hgives h ht
  refine hbranches.congr fun s => ?_
  simp only [Value.askComparison, hcomparison, and_true]
  cases truth with
  | true => rfl
  | false => simp [Cpu.compares, RelOp.relates_inverse]

/-- A register holds if it is not zero. -/
theorem branches_reg {r : Reg} {is : List Instruction}
    (hgives : (Selection.jumpIf truth false (.plain name) (.reg r)).Gives is)
    (h : m.Loaded a (Emission.ofCode c l is)) (ht : m.Target name target) :
    m.Branches a (a + Emission.sizes (Emission.ofCode c l is)) target truth
      ((Value.reg r).ask truth) := by
  simp only [Selection.jumpIf, Selection.gives_sequence_cons, Selection.gives_sequence_nil]
    at hgives
  obtain ⟨_, _, htest, ⟨_, _, hjump, rfl, rfl⟩, rfl⟩ := hgives
  obtain rfl := Selection.gives_emit htest
  obtain rfl := Selection.gives_emit hjump
  have hbranch : (if truth then Mnemonic.brne else .breq).branch? = some (1, !truth) := by
    cases truth <;> rfl
  have hbranches := branches_straight (f := fun s => s.testByte r)
    (by simp [Operand.isSymbolic, Mnemonic.isStraight, Mnemonic.branch?]) (fun s => rfl) hbranch h
    ht
  cases truth
  all_goals
    refine hbranches.congr fun s => ?_
    simp [Value.ask, Status.bit, Cpu.testByte, Status.result]

theorem branches_regBit {r : Reg} {bit : Fin 8} {is : List Instruction}
    (hgives : (Selection.jumpIf truth false (.plain name) (.regBit r bit)).Gives is)
    (h : m.Loaded a (Emission.ofCode c l is)) (ht : m.Target name target) :
    m.Branches a (a + Emission.sizes (Emission.ofCode c l is)) target truth
      ((Value.regBit r bit).ask truth) := by
  simp only [Selection.jumpIf, Selection.skipJump, Selection.gives_sequence_cons,
    Selection.gives_sequence_nil] at hgives
  obtain ⟨_, _, hskip, ⟨_, _, hjump, rfl, rfl⟩, rfl⟩ := hgives
  obtain rfl := Selection.gives_emit hskip
  obtain rfl := Selection.gives_emit hjump
  have hnumber : (Int32.ofNat bit).toNatClampNeg = bit := by
    rw [Int32.toNatClampNeg_ofNat_of_lt (by omega)]
  cases truth with
  | true =>
    have hbranches := branches_skip rfl (by simp [Operand.isSymbolic]) h ht
    exact hbranches.congr fun s => by simp [Value.ask, hnumber]
  | false =>
    have hbranches := branches_skip rfl (by simp [Operand.isSymbolic]) h ht
    exact hbranches.congr fun s => by simp [Value.ask, hnumber]

theorem branches_statusBit {bit : Nat} {is : List Instruction} (hbit : bit < 8)
    (hgives : (Selection.jumpIf truth false (.plain name) (.statusBit bit)).Gives is)
    (h : m.Loaded a (Emission.ofCode c l is)) (ht : m.Target name target) :
    m.Branches a (a + Emission.sizes (Emission.ofCode c l is)) target truth
      ((Value.statusBit bit).ask truth) := by
  obtain rfl := Selection.gives_emit hgives
  simp only [Emission.ofCode_cons, Emission.ofCode_nil, loaded_instruction] at h ⊢
  obtain ⟨ha, hi, -⟩ := h
  intro s
  refine ⟨1, by omega, Machine.run_one ?_⟩
  rw [step_branchOn ha hi hbit ht]
  cases truth <;> rfl

theorem loaded_out {xs ys : List Emission}
    (h : m.Loaded a (xs ++ ys ++ [.label ⟨l, name⟩])) :
    m.Loaded a xs ∧ m.Loaded (a + Emission.sizes xs) ys ∧
      m.Target name (a + Emission.sizes xs + Emission.sizes ys) := by
  simp only [loaded_append, loaded_label, Emission.sizes_append, ← Nat.add_assoc] at h
  exact ⟨h.1.1, h.1.2, h.2.1⟩

end

end Flash

namespace Scope

open Trace

/-- One step of the jumps on a condition. -/
def test (s : Scope) (l : Location) : Test → Lowering Unit
  | .jump code => s.place l code
  | .label name => Trace.define l name

variable {s : Scope} {l : Location} {p q : Progress} {es : List Emission} {m : Flash μ}
  {a target : Nat}

theorem yields_test_jump {code : Selection}
    (h : ([Test.jump code].forM (s.test l) p).Yields es ((), q)) :
    p = q ∧ ∃ is, code.Gives is ∧ es = Emission.ofCode s.comment l is := by
  rw [yields_forM_cons] at h
  obtain ⟨r, as, bs, hcode, hnil, rfl⟩ := h
  obtain ⟨⟨is, his, rfl⟩, rfl⟩ := yields_place.mp hcode
  obtain ⟨rfl, rfl⟩ := yields_forM_nil.mp hnil
  exact ⟨rfl, is, his, by simp [Emission.ofCode]⟩

theorem yields_test_label {name : String}
    (h : ([Test.label name].forM (s.test l) p).Yields es ((), q)) :
    p = q ∧ es = [.label ⟨l, name⟩] := by
  rw [yields_forM_cons] at h
  obtain ⟨r, as, bs, hlabel, hnil, rfl⟩ := h
  change ((liftM (Trace.define l name) : Lowering Unit) p).Yields as _ at hlabel
  obtain ⟨hlabel, rfl⟩ := yields_lift.mp hlabel
  obtain ⟨rfl, rfl⟩ := yields_forM_nil.mp hnil
  exact ⟨rfl, by simpa using hlabel⟩

/-- Two conditions, with a label after them for the case that the first one settles it. -/
theorem yields_tests_label {xs ys : List Test} {out : String}
    (h : ((xs ++ ys ++ [Test.label out]).forM (s.test l) p).Yields es ((), q)) :
    ∃ r as bs, (xs.forM (s.test l) p).Yields as ((), r) ∧ (ys.forM (s.test l) r).Yields bs ((), q) ∧
      es = as ++ bs ++ [.label ⟨l, out⟩] := by
  simp only [yields_forM_append] at h
  obtain ⟨_, _, _, ⟨r, as, bs, hxs, hys, rfl⟩, hlabel, rfl⟩ := h
  obtain ⟨rfl, rfl⟩ := yields_test_label hlabel
  exact ⟨r, as, bs, hxs, hys, rfl⟩

/-- The jumps of a condition lead to the target just if it has the given truth value. -/
theorem branches_jumps {v : Value} {truth : Bool} {name stem : String} (hv : v.isCondition)
    (h : ((Test.jumps truth v (.plain name) stem).forM (s.test l) p).Yields es ((), q))
    (hload : m.Loaded a es) (ht : m.Target name target) :
    p = q ∧ m.Branches a (a + Emission.sizes es) target truth (v.ask truth) := by
  induction v generalizing truth name stem p q es a target with
  | reg r =>
    simp only [Test.jumps] at h
    obtain ⟨rfl, is, his, rfl⟩ := yields_test_jump h
    exact ⟨rfl, Flash.branches_reg his hload ht⟩
  | regBit r bit =>
    simp only [Test.jumps] at h
    obtain ⟨rfl, is, his, rfl⟩ := yields_test_jump h
    exact ⟨rfl, Flash.branches_regBit his hload ht⟩
  | statusBit bit =>
    simp only [Test.jumps] at h
    obtain ⟨rfl, is, his, rfl⟩ := yields_test_jump h
    exact ⟨rfl, Flash.branches_statusBit (by simpa [Value.isCondition] using hv) his hload ht⟩
  | signed v =>
    simp only [Test.jumps] at h
    obtain ⟨rfl, is, his, rfl⟩ := yields_test_jump h
    exact ⟨rfl, Flash.branches_comparison hv his hload ht⟩
  | unary op v ih =>
    cases op with
    | not =>
      cases truth with
      | true =>
        simp only [Test.jumps] at h
        obtain ⟨rfl, hbranches⟩ := ih hv h hload ht
        exact ⟨rfl, hbranches.not⟩
      | false =>
        simp only [Test.jumps] at h
        obtain ⟨rfl, hbranches⟩ := ih hv h hload ht
        exact ⟨rfl, hbranches.not⟩
    | _ => cases hv
  | binary op v w ihv ihw =>
    cases op with
    | both =>
      obtain ⟨hv, hw⟩ := Bool.and_eq_true_iff.mp hv
      cases truth with
      | true =>
        simp only [Test.jumps] at h
        obtain ⟨r, xs, ys, hxs, hys, rfl⟩ := yields_tests_label h
        obtain ⟨hload, hload', hout⟩ := Flash.loaded_out hload
        obtain ⟨rfl, hbranches⟩ := ihv hv hxs hload hout
        obtain ⟨rfl, hbranches'⟩ := ihw hw hys hload' ht
        refine ⟨rfl, ?_⟩
        simp only [Emission.sizes_append, Emission.sizes_label, Emission.sizes_nil, Nat.add_zero,
          ← Nat.add_assoc]
        exact .both hbranches hbranches'
      | false =>
        simp only [Test.jumps, yields_forM_append] at h
        obtain ⟨r, xs, ys, hxs, hys, rfl⟩ := h
        obtain ⟨hload, hload'⟩ := Flash.loaded_append.mp hload
        obtain ⟨rfl, hbranches⟩ := ihv hv hxs hload ht
        obtain ⟨rfl, hbranches'⟩ := ihw hw hys hload' ht
        rw [Emission.sizes_append, ← Nat.add_assoc]
        exact ⟨rfl, .both hbranches hbranches'⟩
    | either =>
      obtain ⟨hv, hw⟩ := Bool.and_eq_true_iff.mp hv
      cases truth with
      | true =>
        simp only [Test.jumps, yields_forM_append] at h
        obtain ⟨r, xs, ys, hxs, hys, rfl⟩ := h
        obtain ⟨hload, hload'⟩ := Flash.loaded_append.mp hload
        obtain ⟨rfl, hbranches⟩ := ihv hv hxs hload ht
        obtain ⟨rfl, hbranches'⟩ := ihw hw hys hload' ht
        rw [Emission.sizes_append, ← Nat.add_assoc]
        exact ⟨rfl, .either hbranches hbranches'⟩
      | false =>
        simp only [Test.jumps] at h
        obtain ⟨r, xs, ys, hxs, hys, rfl⟩ := yields_tests_label h
        obtain ⟨hload, hload', hout⟩ := Flash.loaded_out hload
        obtain ⟨rfl, hbranches⟩ := ihv hv hxs hload hout
        obtain ⟨rfl, hbranches'⟩ := ihw hw hys hload' ht
        refine ⟨rfl, ?_⟩
        simp only [Emission.sizes_append, Emission.sizes_label, Emission.sizes_nil, Nat.add_zero,
          ← Nat.add_assoc]
        exact .either hbranches hbranches'
    | rel op =>
      simp only [Test.jumps] at h
      obtain ⟨rfl, is, his, rfl⟩ := yields_test_jump h
      exact ⟨rfl, Flash.branches_comparison hv his hload ht⟩
    | arith op => cases hv
  | _ => cases hv

theorem branches_gotoIf {v : Value} {truth : Bool} {name stem : String} (hv : v.isCondition)
    (h : (s.gotoIf l truth v (.plain name) stem p).Yields es ((), q))
    (hload : m.Loaded a es) (ht : m.Target name target) :
    p = q ∧ m.Branches a (a + Emission.sizes es) target truth (v.ask truth) :=
  branches_jumps hv h hload ht

end Scope

end Avr
