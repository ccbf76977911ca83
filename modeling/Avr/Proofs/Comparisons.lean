import Avr.Proofs.ConditionalJumps
import Avr.Proofs.Conditions

namespace Avr

/-- A number in the place of a label. -/
def Operand.unlabelled : Operand → Operand
  | label _ => number 0
  | o => o

namespace Instruction

/-- How the instruction goes on, wherever its label lies. -/
def outlook (i : Instruction) : Control :=
  { i with operands := i.operands.map Operand.unlabelled }.control

theorem outlook_of_isStraight {i : Instruction} (h : i.mnemonic.isStraight) :
    i.outlook = .straight :=
  control_of_isStraight h

end Instruction

/-- Runs instructions up to their end, or to the first jump that is taken. There are no labels among
them, so a jump leaves them. -/
def follow (effect : Effect μ) : List Instruction → State μ → Option (Way × State μ)
  | [], s => some (.done, s)
  | i :: is, s =>
    match i.outlook, i.label? with
    | .straight, _ => (i.perform effect s).bind (follow effect is)
    | .jump _, some target => some (.jump target, s)
    | .branch flag value _, some target =>
      if s.cpu.status.bit flag = value then some (.jump target, s) else follow effect is s
    | .skip test, _ =>
      if test s.cpu then
        match is with
        | [] => some (.past, s)
        | _ :: rest => follow effect rest s
      else follow effect is s
    | _, _ => none

/-- The instructions jump to the target exactly if `taken` says so, come to their end if not, and
change nothing but flags. -/
def JumpsIf (effect : Effect μ) (is : List Instruction) (target : LabelRef) (taken : Cpu → Bool) :
    Prop :=
  ∀ s : State μ, ∃ t,
    follow effect is s = some (if taken s.cpu then .jump target else .done, t) ∧
      t.cpu.regs = s.cpu.regs ∧ t.rest = s.rest

section

variable {effect : Effect μ} {target : LabelRef}

theorem JumpsIf.congr {is : List Instruction} {taken taken' : Cpu → Bool}
    (h : JumpsIf effect is target taken) (htaken : ∀ s, taken s = taken' s) :
    JumpsIf effect is target taken' := by
  obtain rfl : taken = taken' := funext htaken
  exact h

/-- Code that goes straight on is run first. -/
theorem follow_append {is js : List Instruction} {s t : State μ}
    (hstraight : ∀ i ∈ is, i.mnemonic.isStraight)
    (hrun : is.foldlM (fun s i => i.perform effect s) s = some t) :
    follow effect (is ++ js) s = follow effect js t := by
  induction is generalizing s with
  | nil =>
    cases hrun
    rfl
  | cons i is ih =>
    rw [List.foldlM_cons] at hrun
    obtain ⟨u, hu, hrun⟩ := Option.bind_eq_some_iff.mp hrun
    have houtlook := Instruction.outlook_of_isStraight (hstraight i (by simp))
    rw [List.cons_append, follow.eq_def]
    simp only [houtlook, hu, Option.bind_some]
    exact ih (fun i hi => hstraight i (by simp [hi])) hrun

/-- Code that only sets flags, and a branch on one of them. -/
theorem jumpsIf_branch {is : List Instruction} {m : Mnemonic} {flag : Nat} {value : Bool}
    {f : Cpu → Status} (hstraight : ∀ i ∈ is, i.mnemonic.isStraight)
    (hflags : ∀ s : State μ, is.foldlM (fun s i => i.perform effect s) s =
      some (s.withStatus (f s.cpu)))
    (hbranch : m.branch? = some (flag, value)) :
    JumpsIf effect (is ++ [{ mnemonic := m, operands := [.label target] }]) target
      fun s => (f s).bit flag = value := by
  intro s
  have houtlook : Instruction.outlook { mnemonic := m, operands := [.label target] } =
      .branch flag value 0 := by
    cases m <;> cases hbranch <;> rfl
  refine ⟨s.withStatus (f s.cpu), ?_, rfl, rfl⟩
  rw [follow_append hstraight (hflags s)]
  by_cases h : (f s.cpu).bit flag = value
  · simp [follow, houtlook, Instruction.label?, State.withStatus, h]
  · simp [follow, houtlook, Instruction.label?, State.withStatus, h]

/-- A jump that is taken unless it is skipped. -/
theorem jumpsIf_skip {i : Instruction} (test : Cpu → Bool) (h : i.outlook = .skip test) :
    JumpsIf effect [i, { mnemonic := .rjmp, operands := [.label target] }] target
      fun s => !test s := by
  intro s
  refine ⟨s, ?_, rfl, rfl⟩
  rw [follow]
  by_cases htest : test s.cpu
  · simp [h, htest, follow]
  · simp only [h, htest]
    rfl

end

namespace Selection

variable {effect : Effect μ} {target : LabelRef} {ls rs : List Reg} {is : List Instruction}

theorem gives_jumpTo {m : Mnemonic} {slot : Slot} (hm : m.forms = [[slot]]) (hslot : slot.isJump)
    (target : LabelRef) :
    (jumpTo m target).Gives [{ mnemonic := m, operands := [.label target] }] := by
  refine gives_emit_iff.mpr ⟨⟨[slot], ?_⟩, rfl⟩
  have hform : m.formOfLength? 1 = some [slot] := by simp [Mnemonic.formOfLength?, hm]
  simp only [Mnemonic.form, List.length_cons, List.length_nil, hform]
  cases slot <;> first | rfl | cases hslot

theorem exists_gives_compareBytes (ls rs : List Reg) : ∃ is, (compareBytes ls rs).Gives is := by
  refine exists_gives_sequence fun x _ => ?_
  obtain ⟨⟨n, l⟩, r⟩ := x
  refine ⟨_, gives_onRegs ?_ l r⟩
  split <;> rfl

/-- Relations that have a branch of their own. -/
theorem exists_gives_branch {op : RelOp} {signed : Bool} {m : Mnemonic}
    (h : branchOn op signed = some m) :
    ∃ is, (sequence [compareBytes ls rs, branch (branchOn op signed) target]).Gives is := by
  obtain ⟨js, hjs⟩ := exists_gives_compareBytes ls rs
  have hks := gives_jumpTo (forms_branchOn op signed m h) rfl target
  rw [h]
  exact ⟨_, gives_sequence_cons.mpr ⟨js, _, hjs, gives_sequence_one.mpr hks, rfl⟩⟩

/-- The bytes of two groups are compared, and then comes the branch for the relation. -/
theorem jumpsIf_compareBytes {op : RelOp} {signed : Bool} (hlen : ls.length = rs.length)
    (hne : ls ≠ [])
    (h : (sequence [compareBytes ls rs, branch (branchOn op signed) target]).Gives is) :
    JumpsIf effect is target fun s => s.compares op signed ls rs := by
  obtain ⟨js, ks, hjs, hks, rfl⟩ := gives_sequence_cons.mp h
  rw [gives_sequence_one] at hks
  obtain ⟨hplain, hflags⟩ := gives_compareBytes hlen hjs
  cases hop : branchOn op signed with
  | none =>
    rw [hop] at hks
    exact absurd hks not_gives_fail
  | some m =>
    rw [hop] at hks
    obtain rfl := gives_emit hks
    obtain ⟨flag, value, hbranch, hspec⟩ := branchOn_spec hop
    refine (jumpsIf_branch (f := fun s => s.comparison ls rs) (fun i hi => (hplain i hi).1)
      (hflags effect) hbranch).congr fun s => ?_
    rw [Bool.eq_iff_iff, decide_eq_true_eq]
    exact hspec s ls rs hlen hne

theorem exists_gives_compareRegs (op : RelOp) (ls rs : List Reg) (signed : Bool)
    (target : LabelRef) : ∃ is, (compareRegs op ls rs signed target).Gives is := by
  unfold compareRegs
  split
  · next l r =>
    have hskip := gives_onRegs (m := .cpse) rfl l r
    have hjump := gives_jumpTo (m := .rjmp) rfl rfl target
    exact ⟨_, gives_sequence_cons.mpr ⟨_, _, hskip, gives_sequence_one.mpr hjump, rfl⟩⟩
  · cases signed <;> exact exists_gives_branch rfl
  · cases signed <;> exact exists_gives_branch rfl
  · next hgt hle _ =>
    cases op with
    | gt => exact absurd rfl hgt
    | le => exact absurd rfl hle
    | _ => cases signed <;> exact exists_gives_branch rfl

theorem jumpsIf_compareRegs {op : RelOp} {signed : Bool} (hlen : ls.length = rs.length)
    (hne : ls ≠ []) (h : (compareRegs op ls rs signed target).Gives is) :
    JumpsIf effect is target fun s => s.compares op signed ls rs := by
  have hne' : rs ≠ [] := by
    rintro rfl
    exact hne (List.eq_nil_of_length_eq_zero hlen)
  unfold compareRegs at h
  split at h
  · next l r =>
    obtain ⟨_, _, hskip, hjump, rfl⟩ := gives_sequence_cons.mp h
    obtain rfl := gives_emit hskip
    obtain rfl := gives_emit (gives_sequence_one.mp hjump)
    refine (jumpsIf_skip (fun s => s.regs l = s.regs r) rfl).congr fun s => ?_
    simp [Cpu.compares, RelOp.relates, s.quantity_inj hlen, Cpu.number, BitVec.toNat_eq]
  · have hjumps : JumpsIf effect is target fun s => s.compares .lt signed rs ls :=
      jumpsIf_compareBytes hlen.symm hne' h
    exact hjumps
  · have hjumps : JumpsIf effect is target fun s => s.compares .ge signed rs ls :=
      jumpsIf_compareBytes hlen.symm hne' h
    exact hjumps
  · exact jumpsIf_compareBytes hlen hne h

/-- Two groups of one width can always be compared. The code jumps to the target exactly if the
relation holds between the numbers in them, read with or without a sign, and it changes no
register. The groups may have registers in common, and one may be in a group twice. -/
theorem compareRegs_branches {μ : Type} (op : RelOp) (signed : Bool) (ls rs : List Reg)
    (target : LabelRef) (hlen : ls.length = rs.length) (hne : ls ≠ []) :
    ∃ c, compareRegs op ls rs signed target = .ok c ∧ ∀ effect : Effect μ,
      JumpsIf effect c.instructions target fun s =>
        op.relates (s.quantity signed ls) (s.quantity signed rs) := by
  obtain ⟨is, h⟩ := exists_gives_compareRegs op ls rs signed target
  obtain ⟨c, hc, rfl⟩ := h
  exact ⟨c, hc, fun effect => jumpsIf_compareRegs hlen hne ⟨c, hc, rfl⟩⟩

namespace ComparisonSample

/-- `r17.r16` -/
def first : List Reg := [⟨17⟩, ⟨16⟩]

/-- `r16.r17` -/
def second : List Reg := [⟨16⟩, ⟨17⟩]

/-- With 128 in `r17` and 1 in `r16`. -/
def start : State Unit := ⟨⟨fun r => if r.number = 17 then 128 else 1, {}⟩, ()⟩

def up : LabelRef := .plain "up"

end ComparisonSample

open ComparisonSample in
theorem compareRegs_branches_shared :
    (∃ c, compareRegs .lt first second true up = .ok c ∧ ∀ effect : Effect Unit, ∃ t,
      follow effect c.instructions start = some (.jump up, t) ∧ t.cpu.regs = start.cpu.regs) ∧
    ∃ c, compareRegs .lt first second false up = .ok c ∧ ∀ effect : Effect Unit, ∃ t,
      follow effect c.instructions start = some (.done, t) ∧ t.cpu.regs = start.cpu.regs := by
  constructor
  · obtain ⟨c, hc, hjumps⟩ := compareRegs_branches .lt true first second up rfl (by decide)
    refine ⟨c, hc, fun effect => ?_⟩
    obtain ⟨t, hfollow, hregs, -⟩ := hjumps effect start
    exact ⟨t, hfollow, hregs⟩
  · obtain ⟨c, hc, hjumps⟩ := compareRegs_branches .lt false first second up rfl (by decide)
    refine ⟨c, hc, fun effect => ?_⟩
    obtain ⟨t, hfollow, hregs, -⟩ := hjumps effect start
    exact ⟨t, hfollow, hregs⟩

end Selection

/-- A byte as a number, with or without a sign. -/
def reading (signed : Bool) (b : Byte) : Int := if signed then b.toInt else b.toNat

namespace Cpu

theorem quantity_single (s : Cpu) (signed : Bool) (r : Reg) :
    s.quantity signed [r] = reading signed (s.regs r) := by
  cases signed with
  | true =>
    have hbits : s.bits [r].length [r] = s.regs r := s.bits_single r
    simp only [quantity, reading, if_true, hbits]
  | false => simp [quantity, reading, number]

/-- The flags of a comparison with a number. -/
def compareNumber (s : Cpu) (r : Reg) (k : Int32) : Status :=
  s.status.difference (s.regs r) (BitVec.ofInt 8 k.toInt) false false

/-- A number is compared like a register that holds it. -/
theorem comparison_set (s : Cpu) {r q : Reg} (h : r ≠ q) (k : Int32) :
    (s.set q (BitVec.ofInt 8 k.toInt)).comparison [r] [q] = s.compareNumber r k := by
  simp [comparison, compareByte, compareNumber, set, h]

end Cpu

/-- The same effect, with comparisons of registers and numbers. -/
def Effect.comparing (effect : Effect μ) : Effect μ
  | .cpi, [.reg r, .number k], s => some (s.withStatus (s.cpu.compareNumber r k))
  | m, operands, s => effect m operands s

namespace RelOp

theorem relates_mirror (op : RelOp) (a b : Int) : op.mirror.relates a b = op.relates b a := by
  cases op <;> simp [mirror, relates, eq_comm]

theorem mirror_inverse (op : RelOp) : op.inverse.mirror = op.mirror.inverse := by
  cases op <;> rfl

/-- The relation and the number that are tested in place of these. -/
def tested : RelOp → Int32 → RelOp × Int32
  | gt, k => (ge, k + 1)
  | le, k => (lt, k + 1)
  | op, k => (op, k)

/-- What the code for a comparison with a number finds out about a byte. A test against zero sees a
sign, whether or not the byte is meant to have one. -/
def finds (op : RelOp) (signed : Bool) (k : Int32) (b : Byte) : Bool :=
  if (op.tested k).2 = 0 then (op.tested k).1.relates b.toInt 0
  else (op.tested k).1.relates (reading signed b)
    (reading signed (BitVec.ofInt 8 (op.tested k).2.toInt))

/-- Where the code is wrong about a byte: above the greatest number with a sign there is none to
compare with, and a byte without a sign is not less than zero if its high bit is set. -/
def misreads (op : RelOp) (signed : Bool) (k : Int32) (b : Byte) : Bool :=
  if signed then k = 127 && (op = gt || op = le) else k = 0 && b.msb && (op = lt || op = ge)

theorem misreads_inverse (op : RelOp) (signed : Bool) (k : Int32) (b : Byte) :
    op.inverse.misreads signed k b = op.misreads signed k b := by
  cases op <;> simp [misreads, inverse]

theorem misreads_iff {op : RelOp} {signed : Bool} {k : Int32} {b : Byte} :
    op.misreads signed k b ↔ if signed then k.toInt = 127 ∧ (op = gt ∨ op = le)
      else k.toInt = 0 ∧ b.msb ∧ (op = lt ∨ op = ge) := by
  have hzero : k = 0 ↔ k.toInt = 0 := Int32.toInt_inj.symm
  have hgreatest : k = 127 ↔ k.toInt = 127 := Int32.toInt_inj.symm
  cases signed <;> simp [misreads, hzero, hgreatest, and_assoc]

theorem tested_of_not {op : RelOp} (hop : ¬ (op = gt ∨ op = le)) (k : Int32) :
    op.tested k = (op, k) := by
  cases op <;> first | rfl | simp at hop

theorem toInt_tested (op : RelOp) {k : Int32} (h : k.toInt < 256) :
    (op.tested k).2.toInt = k.toInt + if op = gt ∨ op = le then 1 else 0 := by
  have hlow := k.le_toInt
  have hnext : (k + 1).toInt = k.toInt + 1 := by
    rw [Int32.toInt_add]
    exact Int.bmod_eq_of_le (by simp; omega) (by simp; omega)
  cases op <;> simp [tested, hnext]

/-- What is tested comes to the same. -/
theorem relates_tested (op : RelOp) {k : Int32} (h : k.toInt < 256) (x : Int) :
    (op.tested k).1.relates x (op.tested k).2.toInt = op.relates x k.toInt := by
  rw [op.toInt_tested h]
  cases op <;> grind [tested, relates]

/-- A byte is in the same relation to zero with or without a sign, unless the sign is asked for.
This is about the relations that are tested. -/
theorem relates_sign_iff {op : RelOp} (hop : ¬ (op = gt ∨ op = le)) (b : Byte) :
    op.relates b.toInt 0 = op.relates b.toNat 0 ↔ ¬ (b.msb ∧ (op = lt ∨ op = ge)) := by
  have hb := b.isLt
  rw [BitVec.toInt_eq_toNat_cond, BitVec.msb_eq_decide]
  cases op <;> simp [relates] at hop ⊢ <;> omega

theorem reading_ofInt {signed : Bool} {j : Int}
    (hj : if signed then -128 ≤ j ∧ j ≤ 127 else 0 ≤ j ∧ j ≤ 255) :
    reading signed (BitVec.ofInt 8 j) = j := by
  cases signed with
  | true =>
    simp only [reading, if_true, BitVec.toInt_ofInt] at hj ⊢
    exact Int.bmod_eq_of_le (by omega) (by omega)
  | false =>
    simp only [reading, Bool.false_eq_true, if_false, BitVec.toNat_ofInt] at hj ⊢
    omega

section

variable {op : RelOp} {signed : Bool} {k : Int32} (b : Byte)
  (hk : if signed then -128 ≤ k.toInt ∧ k.toInt ≤ 127 else 0 ≤ k.toInt ∧ k.toInt ≤ 255)

include hk

/-- A test against zero is wrong if there is no sign to be seen. -/
theorem finds_zero_iff (hzero : (op.tested k).2 = 0) :
    op.finds signed k b = op.relates (reading signed b) k.toInt ↔ ¬ op.misreads signed k b := by
  have hlt : k.toInt < 256 := by split at hk <;> omega
  have htested := op.toInt_tested hlt
  rw [← op.relates_tested hlt, finds, if_pos hzero, misreads_iff]
  rw [hzero] at htested ⊢
  change 0 = _ at htested
  cases signed with
  | true =>
    refine iff_of_true rfl ?_
    rintro ⟨hgreatest, hop⟩
    rw [if_pos hop] at htested
    omega
  | false =>
    -- Zero does not come from the number before it, which has a sign.
    have hop : ¬ (op = gt ∨ op = le) := by
      intro hop
      rw [if_pos hop] at htested
      simp only [Bool.false_eq_true, if_false] at hk
      omega
    rw [if_neg hop] at htested
    have hk0 : k.toInt = 0 := by omega
    rw [tested_of_not hop]
    simpa [reading, hk0] using relates_sign_iff hop b

/-- A comparison with another number is wrong if that is no number with a sign. -/
theorem finds_nonzero_iff (hzero : (op.tested k).2 ≠ 0) (himm : (op.tested k).2.toInt ≤ 255) :
    op.finds signed k b = op.relates (reading signed b) k.toInt ↔ ¬ op.misreads signed k b := by
  have hlt : k.toInt < 256 := by split at hk <;> omega
  have htested := op.toInt_tested hlt
  rw [← op.relates_tested hlt, finds, if_neg hzero, misreads_iff]
  cases signed with
  | true =>
    obtain ⟨hlow, hhigh⟩ : -128 ≤ k.toInt ∧ k.toInt ≤ 127 := hk
    by_cases hwrong : k.toInt = 127 ∧ (op = gt ∨ op = le)
    · -- The number after 127 stands in the instruction as the byte of -128.
      rw [hwrong.1, if_pos hwrong.2] at htested
      refine iff_of_false ?_ (not_not_intro hwrong)
      have hread : reading true (BitVec.ofInt 8 (127 + 1)) = -128 := by decide
      have hlow : -128 ≤ reading true b := BitVec.le_toInt b
      have hhigh : reading true b < 128 := BitVec.toInt_lt
      rw [htested, hread]
      rcases hwrong.2 with rfl | rfl
      · simp only [tested, relates, decide_eq_decide]
        omega
      · simp only [tested, relates, decide_eq_decide]
        omega
    · refine iff_of_true ?_ hwrong
      rw [reading_ofInt]
      by_cases hop : op = gt ∨ op = le
      · have hne : k.toInt ≠ 127 := fun h => hwrong ⟨h, hop⟩
        rw [if_pos rfl, htested, if_pos hop]
        omega
      · rw [if_pos rfl, htested, if_neg hop]
        omega
  | false =>
    obtain ⟨hlow, hhigh⟩ : 0 ≤ k.toInt ∧ k.toInt ≤ 255 := hk
    refine iff_of_true ?_ ?_
    · rw [reading_ofInt]
      simp only [Bool.false_eq_true, if_false]
      split at htested <;> omega
    · rintro ⟨hk0, -, hop⟩
      refine hzero ?_
      rw [tested_of_not (by rcases hop with rfl | rfl <;> simp)]
      exact Int32.toInt_inj.mp hk0

/-- Of all numbers that a byte can hold, the code finds out the right thing but for those two. -/
theorem finds_eq_iff (himm : (op.tested k).2.toInt ≤ 255) :
    op.finds signed k b = op.relates (reading signed b) k.toInt ↔ ¬ op.misreads signed k b := by
  by_cases hzero : (op.tested k).2 = 0
  · exact finds_zero_iff b hk hzero
  · exact finds_nonzero_iff b hk hzero himm

end

end RelOp

/-- A comparison of a register and a number, on either side. -/
def Value.withNumber (op : RelOp) (signed flipped : Bool) (r : Reg) (k : Int32) : Value :=
  let v :=
    if flipped then binary (.rel op) (const k) (reg r) else binary (.rel op) (reg r) (const k)
  if signed then .signed v else v

namespace Selection

variable {effect : Effect μ} {target : LabelRef} {is : List Instruction}

theorem branchOn_number {op : RelOp} {signed : Bool} {m : Mnemonic}
    (h : branchOn op signed = some m) :
    ∃ flag value, m.branch? = some (flag, value) ∧ ∀ (s : Cpu) (r : Reg) (k : Int32),
      ((s.compareNumber r k).bit flag = value ↔
        op.relates (reading signed (s.regs r)) (reading signed (BitVec.ofInt 8 k.toInt))) := by
  obtain ⟨flag, value, hbranch, hspec⟩ := branchOn_spec h
  refine ⟨flag, value, hbranch, fun s r k => ?_⟩
  obtain ⟨q, hq⟩ : ∃ q, r ≠ q := by
    by_cases hr : r = ⟨⟨0, by omega⟩⟩
    · exact ⟨⟨⟨1, by omega⟩⟩, by simp [hr]⟩
    · exact ⟨_, hr⟩
  have hset := hspec (s.set q (BitVec.ofInt 8 k.toInt)) [r] [q] rfl (by simp)
  rw [s.comparison_set hq, Cpu.compares, Cpu.quantity_single, Cpu.quantity_single,
    Cpu.set_regs_self, Cpu.set_regs_of_ne _ _ hq] at hset
  exact hset

/-- After a test, zero and the sign are all that is known. -/
theorem branchOnSign_spec {op : RelOp} {signed : Bool} {m : Mnemonic}
    (h : branchOnSign op signed = some m) :
    ∃ flag value, m.branch? = some (flag, value) ∧ ∀ (s : Cpu) (r : Reg),
      ((s.testByte r).bit flag = value ↔ op.relates (s.regs r).toInt 0) := by
  cases op with
  | eq =>
    cases h
    refine ⟨1, true, rfl, fun s r => ?_⟩
    simp [Status.bit, Cpu.testByte, Status.result, RelOp.relates, ← BitVec.toInt_inj]
  | ne =>
    cases h
    refine ⟨1, false, rfl, fun s r => ?_⟩
    simp [Status.bit, Cpu.testByte, Status.result, RelOp.relates, ← BitVec.toInt_inj]
  | lt =>
    cases h
    refine ⟨2, true, rfl, fun s r => ?_⟩
    simp [Status.bit, Cpu.testByte, Status.result, RelOp.relates, BitVec.msb_eq_toInt]
  | ge =>
    cases h
    refine ⟨2, false, rfl, fun s r => ?_⟩
    simp [Status.bit, Cpu.testByte, Status.result, RelOp.relates, BitVec.msb_eq_toInt]
  | gt => cases h
  | le => cases h

theorem compareConst_eq (op : RelOp) (r : Reg) (k : Int32) (signed : Bool) (target : LabelRef) :
    compareConst op r k signed target =
      if (op.tested k).2 = 0 then
        sequence [onReg .tst r, branch (branchOnSign (op.tested k).1 signed) target]
      else
        sequence [onNumber .cpi r (op.tested k).2, branch (branchOn (op.tested k).1 signed) target]
    := by
  cases op <;> rfl

/-- One instruction that sets flags, and a branch on one of them. -/
theorem jumpsIf_test {m : Mnemonic} {operands : List Operand} {o : Option Mnemonic}
    {f : Cpu → Status} {taken : Cpu → Bool} (hm : m.isStraight)
    (hflags : ∀ s : State μ, Instruction.perform effect { mnemonic := m, operands } s =
      some (s.withStatus (f s.cpu)))
    (hbranch : ∀ b, o = some b → ∃ flag value, b.branch? = some (flag, value) ∧
      ∀ s, ((f s).bit flag = value ↔ taken s))
    (h : (sequence [emit m operands, branch o target]).Gives is) :
    JumpsIf effect is target taken := by
  obtain ⟨_, _, htest, hjump, rfl⟩ := gives_sequence_cons.mp h
  obtain rfl := gives_emit htest
  rw [gives_sequence_one] at hjump
  cases o with
  | none => exact absurd hjump not_gives_fail
  | some b =>
    obtain rfl := gives_emit hjump
    obtain ⟨flag, value, hb, hspec⟩ := hbranch b rfl
    refine (jumpsIf_branch (f := f) ?_ ?_ hb).congr fun s => ?_
    · simpa using hm
    · intro s
      simp [hflags]
    · rw [Bool.eq_iff_iff, decide_eq_true_eq]
      exact hspec s

theorem jumpsIf_compareConst {op : RelOp} {r : Reg} {k : Int32} {signed : Bool}
    (h : (compareConst op r k signed target).Gives is) :
    JumpsIf effect.comparing is target fun s => op.finds signed k (s.regs r) := by
  rw [compareConst_eq] at h
  unfold RelOp.finds
  split at h
  · next hzero =>
    simp only [hzero, if_true]
    refine jumpsIf_test (f := fun s => s.testByte r) rfl (fun s => rfl) (fun b hb => ?_) h
    obtain ⟨flag, value, hbranch, hspec⟩ := branchOnSign_spec hb
    exact ⟨flag, value, hbranch, fun s => hspec s r⟩
  · next hzero =>
    simp only [hzero, if_false]
    refine jumpsIf_test (f := fun s => s.compareNumber r (op.tested k).2) rfl (fun s => rfl)
      (fun b hb => ?_) h
    obtain ⟨flag, value, hbranch, hspec⟩ := branchOn_number hb
    exact ⟨flag, value, hbranch, fun s => hspec s r _⟩

theorem le_of_gives_compareConst {op : RelOp} {r : Reg} {k : Int32} {signed : Bool}
    (h : (compareConst op r k signed target).Gives is) : (op.tested k).2.toInt ≤ 255 := by
  rw [compareConst_eq] at h
  split at h
  · next hzero => simp [hzero]
  · obtain ⟨_, _, hcompare, -, -⟩ := gives_sequence_cons.mp h
    obtain ⟨⟨-, hcheck⟩, -⟩ := (gives_immediate_iff rfl).mp hcompare
    by_contra hlt
    have hrange : ¬ (op.tested k).2 ≤ 255 := fun hle => hlt (Int32.le_iff_toInt_le.mp hle)
    simp [Slot.check, Slot.range?, Slot.checkNumber, hrange] at hcheck

theorem jumpIf_withNumber (truth signed flipped : Bool) (op : RelOp) (r : Reg) (k : Int32)
    (target : LabelRef) :
    jumpIf truth false target (.withNumber op signed flipped r k) =
      let op := if flipped then op.mirror else op
      compareConst (if truth then op else op.inverse) r k signed target := by
  cases flipped with
  | true =>
    cases truth <;> cases signed <;> simp [Value.withNumber, jumpIf, compare, op.mirror_inverse]
  | false => cases truth <;> cases signed <;> rfl

theorem relates_flipped (op : RelOp) (flipped : Bool) (x k : Int) :
    (if flipped then op.mirror else op).relates x k =
      if flipped then op.relates k x else op.relates x k := by
  cases flipped with
  | true => exact op.relates_mirror x k
  | false => rfl

/-- A comparison of a register with a number that a byte can hold, if it has code at all, jumps to
the target exactly if the condition holds, or fails if that is asked for, and changes no register.
There are two exceptions: `>` and `<=` with a sign compare with -128 in place of the number after
127, and `<` and `>=` without a sign see one when they compare with 0. -/
theorem jumpIf_number_iff {μ : Type} (truth signed flipped : Bool) (op : RelOp) (r : Reg)
    (k : Int32) (target : LabelRef) (c : Code)
    (hk : if signed then -128 ≤ k.toInt ∧ k.toInt ≤ 127 else 0 ≤ k.toInt ∧ k.toInt ≤ 255)
    (hc : jumpIf truth false target (.withNumber op signed flipped r k) = .ok c) :
    ∃ taken : Cpu → Bool,
      (∀ effect : Effect μ, JumpsIf effect.comparing c.instructions target taken) ∧
      ∀ s : Cpu,
        let x := reading signed (s.regs r)
        let holds := if flipped then op.relates k.toInt x else op.relates x k.toInt
        (taken s ↔ holds = truth) ↔
          ¬ (if flipped then op.mirror else op).misreads signed k (s.regs r) := by
  rw [jumpIf_withNumber] at hc
  refine ⟨_, fun effect => jumpsIf_compareConst ⟨c, hc, rfl⟩, fun s => ?_⟩
  have hright := RelOp.finds_eq_iff (s.regs r) hk (le_of_gives_compareConst ⟨c, hc, rfl⟩)
  simp only [← relates_flipped]
  cases truth with
  | true =>
    rw [← Bool.eq_iff_iff]
    exact hright
  | false =>
    rw [← Bool.not_eq_true', ← Bool.eq_iff_iff, ← RelOp.relates_inverse, ← RelOp.misreads_inverse]
    exact hright

namespace ComparisonSample

def r16 : Reg := ⟨16⟩

end ComparisonSample

open ComparisonSample in
/-- The jump for `signed(r16 > 127)` is always taken, and the one for `signed(r16 > 126)` if it
should be. -/
theorem jumpIf_number_iff_greatest :
    (∃ c, jumpIf true false up (.withNumber .gt true false r16 127) = .ok c ∧
      ∀ effect : Effect Unit, JumpsIf effect.comparing c.instructions up fun _ => true) ∧
    ∃ c, jumpIf true false up (.withNumber .gt true false r16 126) = .ok c ∧
      ∀ effect : Effect Unit,
        JumpsIf effect.comparing c.instructions up fun s => 126 < (s.regs r16).toInt := by
  constructor
  · refine ⟨_, rfl, fun effect => ?_⟩
    obtain ⟨taken, hjumps, hright⟩ := jumpIf_number_iff (μ := Unit) true true false .gt r16 127 up _
      (by decide) rfl
    refine (hjumps effect).congr fun s => ?_
    have hlt : (s.regs r16).toInt < 128 := BitVec.toInt_lt
    have hholds : RelOp.gt.relates (s.regs r16).toInt 127 = false := decide_eq_false (by omega)
    by_contra hnot
    exact (hright s).mp (iff_of_false hnot (by simp [reading, hholds])) rfl
  · refine ⟨_, rfl, fun effect => ?_⟩
    obtain ⟨taken, hjumps, hright⟩ := jumpIf_number_iff (μ := Unit) true true false .gt r16 126 up _
      (by decide) rfl
    refine (hjumps effect).congr fun s => ?_
    exact Bool.eq_iff_iff.mpr ((hright s).mpr Bool.false_ne_true)

end Selection

end Avr
