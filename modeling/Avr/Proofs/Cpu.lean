import Avr.Lowering.Code
import Avr.Proofs.Outcome

namespace Avr

abbrev Byte := BitVec 8

structure Status where
  carry : Bool := false
  zero : Bool := false
  negative : Bool := false
  overflow : Bool := false
  /-- Negative as two's complement, whatever the width said. -/
  sign : Bool := false
  halfCarry : Bool := false
  transfer : Bool := false
  interrupt : Bool := false
deriving DecidableEq

namespace Status

/-- The flags that show a result. The carry is not one of them. -/
def result (s : Status) (r : BitVec n) (overflow : Bool) : Status :=
  { s with zero := r = 0, negative := r.msb, overflow, sign := r.msb ^^ overflow }

def sum (s : Status) (a b : Byte) (c : Bool) : Status :=
  let r := a + b + BitVec.ofNat 8 c.toNat
  { s.result r (a.msb = b.msb && r.msb ≠ a.msb) with
    carry := 256 ≤ a.toNat + b.toNat + c.toNat
    halfCarry := 16 ≤ a.toNat % 16 + b.toNat % 16 + c.toNat }

/-- A difference of several bytes is zero if all of its bytes are. -/
def difference (s : Status) (a b : Byte) (c chained : Bool) : Status :=
  let r := a - b - BitVec.ofNat 8 c.toNat
  { s.result r (a.msb ≠ b.msb && r.msb ≠ a.msb) with
    zero := r = 0 && (!chained || s.zero)
    carry := a.toNat < b.toNat + c.toNat
    halfCarry := a.toNat % 16 < b.toNat % 16 + c.toNat }

end Status

theorem Reg.number_inj {r q : Reg} (h : r.number = q.number) : r = q := by
  obtain ⟨m⟩ := r
  obtain ⟨n⟩ := q
  obtain rfl : m = n := Fin.ext h
  rfl

structure Cpu where
  regs : Reg → Byte
  status : Status

namespace Cpu

def set (s : Cpu) (r : Reg) (b : Byte) : Cpu :=
  { s with regs := fun q => if q = r then b else s.regs q }

@[simp] theorem set_regs_self (s : Cpu) (r : Reg) (b : Byte) : (s.set r b).regs r = b := by
  simp [set]

@[simp] theorem set_regs_of_ne (s : Cpu) {r q : Reg} (b : Byte) (h : q ≠ r) :
    (s.set r b).regs q = s.regs q := by
  simp [set, h]

/-- Both bytes of a pair. -/
def word (s : Cpu) (p : Pair) : BitVec 16 := s.regs p.high ++ s.regs p.low

def setWord (s : Cpu) (p : Pair) (w : BitVec 16) : Cpu :=
  (s.set p.high (w.extractLsb' 8 8)).set p.low (w.extractLsb' 0 8)

/-- Adds to a register, with what is carried into it. -/
def addByte (s : Cpu) (d : Reg) (b : Byte) (c : Bool) : Cpu :=
  { s.set d (s.regs d + b + BitVec.ofNat 8 c.toNat) with status := s.status.sum (s.regs d) b c }

def subByte (s : Cpu) (chained : Bool) (d : Reg) (b : Byte) (c : Bool) : Cpu :=
  { s.set d (s.regs d - b - BitVec.ofNat 8 c.toNat) with
    status := s.status.difference (s.regs d) b c chained }

/-- The result of an operation on bits. -/
def setBits (s : Cpu) (d : Reg) (b : Byte) : Cpu :=
  { s.set d b with status := s.status.result b false }

def increment (s : Cpu) (d : Reg) : Cpu :=
  { s.set d (s.regs d + 1) with status := s.status.result (s.regs d + 1) (s.regs d = 0x7f) }

def decrement (s : Cpu) (d : Reg) : Cpu :=
  { s.set d (s.regs d - 1) with status := s.status.result (s.regs d - 1) (s.regs d = 0x80) }

/-- Shifts to the right, with the bit that comes in at the top. -/
def shiftByte (s : Cpu) (d : Reg) (top : Bool) : Cpu :=
  let r : Byte := BitVec.cons top ((s.regs d).extractLsb' 1 7)
  { s.set d r with
    status := { s.status.result r (top ^^ (s.regs d).getLsbD 0) with
      carry := (s.regs d).getLsbD 0 } }

def addWord (s : Cpu) (p : Pair) (k : BitVec 16) : Cpu :=
  { s.setWord p (s.word p + k) with
    status := { s.status.result (s.word p + k) (!(s.word p).msb && (s.word p + k).msb) with
      carry := 65536 ≤ (s.word p).toNat + k.toNat } }

def subWord (s : Cpu) (p : Pair) (k : BitVec 16) : Cpu :=
  { s.setWord p (s.word p - k) with
    status := { s.status.result (s.word p - k) ((s.word p).msb && !(s.word p - k).msb) with
      carry := (s.word p).toNat < k.toNat } }

/-- `clr` clears a register by combining it with itself, and `lsl` and `rol` add it to itself. -/
def execReg (s : Cpu) (d : Reg) : Mnemonic → Option Cpu
  | .inc => some (s.increment d)
  | .dec => some (s.decrement d)
  | .clr => some (s.setBits d (s.regs d ^^^ s.regs d))
  | .lsl => some (s.addByte d (s.regs d) false)
  | .rol => some (s.addByte d (s.regs d) s.status.carry)
  | .lsr => some (s.shiftByte d false)
  | .ror => some (s.shiftByte d s.status.carry)
  | _ => none

def execPairs (s : Cpu) (d r : Pair) : Mnemonic → Option Cpu
  | .movw => some (s.setWord d (s.word r))
  | _ => none

def execRegs (s : Cpu) (d r : Reg) : Mnemonic → Option Cpu
  | .mov => some (s.set d (s.regs r))
  | .add => some (s.addByte d (s.regs r) false)
  | .adc => some (s.addByte d (s.regs r) s.status.carry)
  | .sub => some (s.subByte false d (s.regs r) false)
  | .sbc => some (s.subByte true d (s.regs r) s.status.carry)
  | .and => some (s.setBits d (s.regs d &&& s.regs r))
  | .or => some (s.setBits d (s.regs d ||| s.regs r))
  | .eor => some (s.setBits d (s.regs d ^^^ s.regs r))
  | m => do s.execPairs (← Pair.ofLow? d) (← Pair.ofLow? r) m

def execPair (s : Cpu) (d : Pair) (k : Int) : Mnemonic → Option Cpu
  | .adiw => some (s.addWord d (BitVec.ofInt 16 k))
  | .sbiw => some (s.subWord d (BitVec.ofInt 16 k))
  | _ => none

def execNumber (s : Cpu) (d : Reg) (k : Int) : Mnemonic → Option Cpu
  | .ldi => some (s.set d (BitVec.ofInt 8 k))
  | .subi => some (s.subByte false d (BitVec.ofInt 8 k) false)
  | .sbci => some (s.subByte true d (BitVec.ofInt 8 k) s.status.carry)
  | .andi => some (s.setBits d (s.regs d &&& BitVec.ofInt 8 k))
  | .ori => some (s.setBits d (s.regs d ||| BitVec.ofInt 8 k))
  | m => do s.execPair (← Pair.ofLow? d) k m

/-- One instruction. An operand that is still a symbol has no meaning here. -/
def exec (i : Instruction) (s : Cpu) : Option Cpu :=
  match i.operands with
  | [.reg d] => s.execReg d i.mnemonic
  | [.reg d, .reg r] => s.execRegs d r i.mnemonic
  | [.pair d, .pair r] => s.execPairs d r i.mnemonic
  | [.reg d, .number k] => s.execNumber d k.toInt i.mnemonic
  | [.pair d, .number k] => s.execPair d k.toInt i.mnemonic
  | _ => none

def run (is : List Instruction) (s : Cpu) : Option Cpu := is.foldlM (fun s i => s.exec i) s

/-- The instructions run to their end and leave a state of this kind. -/
def Ends (is : List Instruction) (s : Cpu) (P : Cpu → Prop) : Prop := ∃ t, run is s = some t ∧ P t

theorem ends_nil {s : Cpu} {P : Cpu → Prop} (h : P s) : Ends [] s P := ⟨s, rfl, h⟩

theorem ends_one {i : Instruction} {s t : Cpu} {P : Cpu → Prop} (hi : s.exec i = some t) (h : P t) :
    Ends [i] s P :=
  ⟨t, by simp [run, hi], h⟩

theorem Ends.imp {is : List Instruction} {s : Cpu} {P Q : Cpu → Prop} (h : Ends is s P)
    (hq : ∀ t, P t → Q t) : Ends is s Q := by
  obtain ⟨t, hr, hp⟩ := h
  exact ⟨t, hr, hq t hp⟩

theorem Ends.append {is js : List Instruction} {s : Cpu} {P Q : Cpu → Prop} (h : Ends is s P)
    (hq : ∀ t, P t → Ends js t Q) : Ends (is ++ js) s Q := by
  obtain ⟨t, hr, hp⟩ := h
  obtain ⟨u, hu, hq⟩ := hq t hp
  refine ⟨u, ?_, hq⟩
  simp only [run] at hr hu
  simp [run, List.foldlM_append, hr, hu]

end Cpu

namespace Selection

/-- The selection succeeds with these instructions, whatever it warns of. -/
def Gives (s : Selection) (is : List Instruction) : Prop := ∃ c, s = .ok c ∧ c.instructions = is

theorem Gives.unique {x : Selection} {is js : List Instruction} (hi : x.Gives is)
    (hj : x.Gives js) : is = js := by
  obtain ⟨c, hc, rfl⟩ := hi
  obtain ⟨d, hd, rfl⟩ := hj
  cases hc.symm.trans hd
  rfl

theorem exists_ok_iff {x : Selection} : (∃ c, x = .ok c) ↔ ∃ is, x.Gives is := by
  constructor
  · rintro ⟨c, hc⟩
    exact ⟨_, c, hc, rfl⟩
  · rintro ⟨_, c, hc, _⟩
    exact ⟨c, hc⟩

theorem not_gives_fail {e : SemanticError} {is : List Instruction} : ¬ Gives (fail e) is := by
  rintro ⟨c, h, _⟩
  cases h

theorem gives_nothing {is : List Instruction} (h : Gives nothing is) : is = [] := by
  obtain ⟨c, hc, rfl⟩ := h
  cases hc
  rfl

theorem gives_warn {w : Warning} {is : List Instruction} (h : Gives (warn w) is) : is = [] := by
  obtain ⟨c, hc, rfl⟩ := h
  cases hc
  rfl

theorem gives_emit_iff {m : Mnemonic} {operands : List Operand} {is : List Instruction} :
    (emit m operands).Gives is ↔
      (∃ slots, m.form operands = .ok slots) ∧ is = [{ mnemonic := m, operands }] := by
  cases hform : m.form operands with
  | error e =>
    have hemit : emit m operands = .error (.encoding e) := by
      simp only [emit, Instruction.make, hform]
      rfl
    simp [hemit, Gives]
  | ok slots =>
    have hemit : emit m operands = .ok { instructions := [{ mnemonic := m, operands }] } := by
      simp only [emit, Instruction.make, hform]
      rfl
    simp [hemit, Gives, eq_comm]

theorem gives_emit {m : Mnemonic} {operands : List Operand} {is : List Instruction}
    (h : Gives (emit m operands) is) : is = [{ mnemonic := m, operands }] :=
  (gives_emit_iff.mp h).2

/-- Two registers always make an instruction, if the mnemonic takes two. -/
theorem gives_onRegs {m : Mnemonic} (hm : m.forms = [[.reg, .reg]]) (d r : Reg) :
    (onRegs m d r).Gives [{ mnemonic := m, operands := [.reg d, .reg r] }] := by
  refine gives_emit_iff.mpr ⟨⟨[.reg, .reg], ?_⟩, rfl⟩
  have hform : m.formOfLength? 2 = some [.reg, .reg] := by simp [Mnemonic.formOfLength?, hm]
  simp only [Mnemonic.form, List.length_cons, List.length_nil, hform]
  rfl

theorem gives_onReg {m : Mnemonic} (hm : m.forms = [[.reg]]) (r : Reg) :
    (onReg m r).Gives [{ mnemonic := m, operands := [.reg r] }] := by
  refine gives_emit_iff.mpr ⟨⟨[.reg], ?_⟩, rfl⟩
  have hform : m.formOfLength? 1 = some [.reg] := by simp [Mnemonic.formOfLength?, hm]
  simp only [Mnemonic.form, List.length_cons, List.length_nil, hform]
  rfl

/-- A high register and what fits into eight bits make an instruction. -/
theorem form_immediate_iff {m : Mnemonic} (hm : m.forms = [[.highReg, .imm8]]) {r : Reg}
    {o : Operand} {slots : List Slot} :
    m.form [.reg r, o] = .ok slots ↔
      (r.isHigh ∧ Slot.imm8.check m o = .ok ()) ∧ slots = [.highReg, .imm8] := by
  have hform : m.formOfLength? 2 = some [.highReg, .imm8] := by simp [Mnemonic.formOfLength?, hm]
  have hhigh : Slot.highReg.check m (.reg r) = .ok () ↔ r.isHigh := by
    cases hr : r.isHigh <;> simp [Slot.check, hr]
  simp only [Mnemonic.form, List.length_cons, List.length_nil, hform, Slot.checkAll,
    Outcome.bind_ok, Outcome.pure_ok]
  constructor
  · rintro ⟨_, ⟨_, hr, _, ho, _⟩, rfl⟩
    exact ⟨⟨hhigh.mp hr, ho⟩, rfl⟩
  · rintro ⟨⟨hr, ho⟩, rfl⟩
    exact ⟨(), ⟨(), hhigh.mpr hr, (), ho, trivial⟩, rfl⟩

theorem gives_immediate_iff {m : Mnemonic} (hm : m.forms = [[.highReg, .imm8]]) {r : Reg}
    {o : Operand} {is : List Instruction} :
    (emit m [.reg r, o]).Gives is ↔ (r.isHigh ∧ Slot.imm8.check m o = .ok ()) ∧
      is = [{ mnemonic := m, operands := [.reg r, o] }] := by
  simp [gives_emit_iff, form_immediate_iff hm]

theorem gives_sequence_nil {is : List Instruction} : Gives (sequence []) is ↔ is = [] := by
  constructor
  · exact gives_nothing
  · rintro rfl
    exact ⟨_, rfl, rfl⟩

theorem gives_sequence_cons {s : Selection} {rest : List Selection} {is : List Instruction} :
    Gives (sequence (s :: rest)) is ↔
      ∃ js ks, Gives s js ∧ Gives (sequence rest) ks ∧ is = js ++ ks := by
  constructor
  · rintro ⟨c, h, rfl⟩
    unfold sequence at h
    obtain ⟨a, ha, h⟩ := Outcome.bind_ok.mp h
    obtain ⟨b, hb, h⟩ := Outcome.bind_ok.mp h
    cases h
    exact ⟨_, _, ⟨a, ha, rfl⟩, ⟨b, hb, rfl⟩, rfl⟩
  · rintro ⟨_, _, ⟨a, rfl, rfl⟩, ⟨b, hb, rfl⟩, rfl⟩
    exact ⟨a.append b, by rw [sequence, hb]; rfl, rfl⟩

theorem gives_sequence_one {s : Selection} {is : List Instruction} :
    (sequence [s]).Gives is ↔ s.Gives is := by
  simp [gives_sequence_cons, gives_sequence_nil]

theorem gives_sequence_append {xs ys : List Selection} {is : List Instruction} :
    Gives (sequence (xs ++ ys)) is ↔
      ∃ js ks, Gives (sequence xs) js ∧ Gives (sequence ys) ks ∧ is = js ++ ks := by
  induction xs generalizing is with
  | nil => simp [gives_sequence_nil]
  | cons x xs ih =>
    simp only [List.cons_append, gives_sequence_cons, ih]
    constructor
    · rintro ⟨js, _, hj, ⟨ks, ls, hk, hl, rfl⟩, rfl⟩
      exact ⟨_, ls, ⟨js, ks, hj, hk, rfl⟩, hl, by simp⟩
    · rintro ⟨_, ls, ⟨js, ks, hj, hk, rfl⟩, hl, rfl⟩
      exact ⟨js, _, hj, ⟨ks, ls, hk, hl, rfl⟩, by simp⟩

theorem exists_gives_sequence {F : α → Selection} {xs : List α}
    (h : ∀ x ∈ xs, ∃ is, (F x).Gives is) : ∃ is, (sequence (xs.map F)).Gives is := by
  induction xs with
  | nil => exact ⟨[], gives_sequence_nil.mpr rfl⟩
  | cons x xs ih =>
    obtain ⟨js, hj⟩ := h x (by simp)
    obtain ⟨ks, hk⟩ := ih fun y hy => h y (by simp [hy])
    exact ⟨js ++ ks, gives_sequence_cons.mpr ⟨js, ks, hj, hk, rfl⟩⟩

theorem exists_gives_of_forall {xs : List Selection} (h : ∀ x ∈ xs, ∃ is, x.Gives is) :
    ∃ is, (sequence xs).Gives is := by
  simpa using exists_gives_sequence (F := id) h

/-- A sequence of single instructions. -/
theorem gives_sequence_map_iff {F : α → Selection} {P : α → Prop} {i : α → Instruction}
    (hF : ∀ x is, (F x).Gives is ↔ P x ∧ is = [i x]) {xs : List α} {is : List Instruction} :
    (sequence (xs.map F)).Gives is ↔ (∀ x ∈ xs, P x) ∧ is = xs.map i := by
  induction xs generalizing is with
  | nil => simp [gives_sequence_nil]
  | cons x xs ih =>
    rw [List.map_cons, gives_sequence_cons]
    simp only [hF, ih, List.forall_mem_cons, List.map_cons]
    constructor
    · rintro ⟨_, _, ⟨hx, rfl⟩, ⟨hxs, rfl⟩, rfl⟩
      exact ⟨⟨hx, hxs⟩, rfl⟩
    · rintro ⟨⟨hx, hxs⟩, rfl⟩
      exact ⟨_, _, ⟨hx, rfl⟩, ⟨hxs, rfl⟩, rfl⟩

end Selection

end Avr
