import Avr.Proofs.Placement

namespace Avr

open Outcome

namespace Status

/-- The flags by their numbers. -/
def bit (s : Status) : Nat → Bool
  | 0 => s.carry
  | 1 => s.zero
  | 2 => s.negative
  | 3 => s.overflow
  | 4 => s.sign
  | 5 => s.halfCarry
  | 6 => s.transfer
  | 7 => s.interrupt
  | _ => false

end Status

namespace Cpu

/-- The flags of a comparison, which may go on from one of lower bytes. -/
def compareByte (s : Cpu) (d r : Reg) (chained : Bool) : Status :=
  s.status.difference (s.regs d) (s.regs r) (chained && s.status.carry) chained

/-- The flags of a register. -/
def testByte (s : Cpu) (r : Reg) : Status := s.status.result (s.regs r) false

end Cpu

/-- Registers and flags, and whatever else there is. -/
structure State (μ : Type) where
  cpu : Cpu
  rest : μ

/-- The state with other flags. -/
def State.withStatus (s : State μ) (f : Status) : State μ :=
  { s with cpu := { s.cpu with status := f } }

/-- What an instruction does that goes straight on, if it can. -/
abbrev Effect (μ : Type) := Mnemonic → List Operand → State μ → Option (State μ)

namespace Mnemonic

/-- The flag that decides a branch, and the value for which it is taken. -/
def branch? : Mnemonic → Option (Nat × Bool)
  | brcs | brlo => some (0, true)
  | brcc | brsh => some (0, false)
  | breq => some (1, true)
  | brne => some (1, false)
  | brmi => some (2, true)
  | brpl => some (2, false)
  | brvs => some (3, true)
  | brvc => some (3, false)
  | brlt => some (4, true)
  | brge => some (4, false)
  | brhs => some (5, true)
  | brhc => some (5, false)
  | brts => some (6, true)
  | brtc => some (6, false)
  | brie => some (7, true)
  | brid => some (7, false)
  | _ => none

/-- Neither transfers control nor skips. -/
def isStraight (m : Mnemonic) : Bool :=
  match m with
  | brbs | brbc | rjmp | rcall | jmp | call | ijmp | eijmp | icall | eicall | ret | reti | cpse
  | sbrc | sbrs | sbic | sbis => false
  | m => m.branch?.isNone

end Mnemonic

/-- How an instruction goes on. -/
inductive Control
  | straight
  | jump (k : Int32)
  /-- Jumps if the flag has the value. -/
  | branch (flag : Nat) (value : Bool) (k : Int32)
  /-- Leaves out the next instruction. -/
  | skip (test : Cpu → Bool)
  | other

namespace Instruction

def control (i : Instruction) : Control :=
  match i.mnemonic, i.operands with
  | .rjmp, [.number k] => .jump k
  | .brbs, [.number b, .number k] => .branch b.toNatClampNeg true k
  | .brbc, [.number b, .number k] => .branch b.toNatClampNeg false k
  | .sbrc, [.reg r, .number b] => .skip fun s => !(s.regs r).getLsbD b.toNatClampNeg
  | .sbrs, [.reg r, .number b] => .skip fun s => (s.regs r).getLsbD b.toNatClampNeg
  | .cpse, [.reg d, .reg r] => .skip fun s => s.regs d = s.regs r
  | m, operands =>
    match m.branch?, operands with
    | some (flag, value), [.number k] => .branch flag value k
    | _, _ => if m.isStraight then .straight else .other

def perform (effect : Effect μ) (i : Instruction) (s : State μ) : Option (State μ) :=
  match i.mnemonic, i.operands with
  | .cp, [.reg d, .reg r] => some (s.withStatus (s.cpu.compareByte d r false))
  | .cpc, [.reg d, .reg r] => some (s.withStatus (s.cpu.compareByte d r true))
  | .tst, [.reg r] => some (s.withStatus (s.cpu.testByte r))
  | m, operands => effect m operands s

@[simp] theorem perform_withComment (effect : Effect μ) (c : Option String) (i : Instruction)
    (s : State μ) : (i.withComment c).perform effect s = i.perform effect s := rfl

theorem control_of_isStraight {i : Instruction} (h : i.mnemonic.isStraight) :
    i.control = .straight := by
  obtain ⟨m, operands, comment⟩ := i
  have hnone : m.branch? = none := by cases m <;> first | rfl | cases h
  unfold control
  split
  case h_7 => simp_all
  all_goals simp_all [Mnemonic.isStraight]

end Instruction

/-- The instruction of the line with its size. -/
def Line.instruction? (x : Line) : Option (Instruction × Nat) :=
  match x.content with
  | .instruction _ resolved => some (resolved, x.bytes.length)
  | _ => none

def Line.instructionAt? (a : Nat) (x : Line) : Option (Instruction × Nat) :=
  if x.offset = a then x.instruction? else none

structure Config (μ : Type) where
  pc : Nat
  state : State μ

/-- Lines of a listing as program memory. -/
structure Machine (μ : Type) where
  code : List Line
  effect : Effect μ

namespace Machine

variable (m : Machine μ)

def fetch (a : Nat) : Option (Instruction × Nat) :=
  m.code.findSome? (Line.instructionAt? a)

/-- A jump counts words from the next instruction. -/
def aim (pc : Nat) (k : Int32) : Nat := ((pc : Int) + 2 + 2 * k.toInt).toNat

def step (c : Config μ) : Option (Config μ) :=
  match m.fetch c.pc with
  | none => none
  | some (i, size) =>
    match i.control with
    | .straight => (i.perform m.effect c.state).map fun s => ⟨c.pc + size, s⟩
    | .jump k => some ⟨aim c.pc k, c.state⟩
    | .branch flag value k =>
      some ⟨if c.state.cpu.status.bit flag = value then aim c.pc k else c.pc + size, c.state⟩
    | .skip test =>
      if test c.state.cpu then
        (m.fetch (c.pc + size)).map fun next => ⟨c.pc + size + next.2, c.state⟩
      else some ⟨c.pc + size, c.state⟩
    | .other => none

/-- So many steps. -/
def run : Nat → Config μ → Option (Config μ)
  | 0, c => some c
  | n + 1, c => (m.step c).bind (run n)

def Reaches (c d : Config μ) : Prop := ∃ n, m.run n c = some d

variable {m}

theorem findSome_instructionAt {xs : List Line} {a : Nat}
    (h : ∀ x ∈ xs, x.instruction?.isSome → x.offset < a) :
    xs.findSome? (Line.instructionAt? a) = none := by
  refine List.findSome?_eq_none_iff.mpr fun x hx => ?_
  unfold Line.instructionAt?
  split
  · next he =>
    by_contra hi
    have := h x hx (Option.isSome_iff_ne_none.mpr hi)
    omega
  · rfl

/-- An instruction that lies behind all others before it. -/
theorem fetch_append {before after : List Line} {x : Line} {r : Instruction × Nat}
    (hcode : m.code = before ++ x :: after)
    (hbefore : ∀ y ∈ before, y.instruction?.isSome → y.offset < x.offset)
    (hx : x.instruction? = some r) : m.fetch x.offset = some r := by
  rw [fetch, hcode, List.findSome?_append, findSome_instructionAt hbefore]
  simp [Line.instructionAt?, hx]

theorem run_add (j k : Nat) (c : Config μ) : m.run (j + k) c = (m.run j c).bind (m.run k) := by
  induction j generalizing c with
  | zero => simp [run]
  | succ j ih =>
    rw [Nat.add_right_comm, run, run]
    cases m.step c with
    | none => rfl
    | some d => exact ih d

theorem run_trans {j k : Nat} {c d e : Config μ} (hj : m.run j c = some d)
    (hk : m.run k d = some e) : m.run (j + k) c = some e := by
  rw [run_add, hj, Option.bind_some, hk]

theorem run_one {c d : Config μ} (h : m.step c = some d) : m.run 1 c = some d := by
  simp [run, h]

/-- A run that stops for good has every other run from there behind it. -/
theorem run_split {j n : Nat} {c d e : Config μ} (hj : m.run j c = some d)
    (hn : m.run n c = some e) (he : m.step e = none) : j ≤ n ∧ m.run (n - j) d = some e := by
  by_cases hle : j ≤ n
  · refine ⟨hle, ?_⟩
    rw [← Nat.add_sub_cancel' hle, run_add, hj, Option.bind_some] at hn
    exact hn
  · obtain ⟨i, rfl⟩ : ∃ i, j = n + (i + 1) := ⟨j - n - 1, by omega⟩
    rw [run_add, hn, Option.bind_some, run, he] at hj
    cases hj

end Machine

namespace Layout

theorem aim_reference_near {slot : Slot} {here target : Nat} (hslot : slot.isRelative)
    (hparity : here % 2 = target % 2) (hback : here < target + 0x80000000)
    (hforth : target < here + 0x80000000) :
    Machine.aim here (reference here target slot) = target := by
  rw [Machine.aim, toInt_reference hslot hparity hback hforth]
  omega

theorem resolveInstruction_ok {l : Layout} {linker : Bool} {here : Nat} {i r : Instruction}
    {bytes : List UInt8} (h : l.resolveInstruction linker here i = .ok (r, bytes)) :
    ∃ slots operands, i.mnemonic.formOfLength? i.operands.length = some slots ∧
      l.resolveOperands linker here slots i.operands = .ok operands ∧
      r = { i with operands } := by
  unfold resolveInstruction at h
  simp only [bind_ok, pure_ok, mapError_ok] at h
  obtain ⟨slots, hform, operands, hops, _, _, h⟩ := h
  cases h
  exact ⟨slots, operands, (Mnemonic.form_ok hform).1, hops, rfl⟩

theorem resolveOperands_plain {l : Layout} {linker : Bool} {here : Nat} {slots : List Slot}
    {operands : List Operand} (hlen : slots.length = operands.length)
    (h : ∀ o ∈ operands, o.isSymbolic = false) :
    l.resolveOperands linker here slots operands = .ok operands := by
  induction slots generalizing operands with
  | nil =>
    obtain rfl := List.eq_nil_of_length_eq_zero hlen.symm
    rfl
  | cons s ss ih =>
    obtain ⟨o, os, rfl⟩ := List.exists_cons_of_length_eq_add_one hlen.symm
    have ho : l.resolveOperand linker here s o = .ok o := by
      have := h o (by simp)
      cases o <;> first | rfl | cases this
    rw [resolveOperands, ho, ih (by simpa using hlen) fun o ho => h o (by simp [ho])]
    rfl

/-- Without symbols an instruction is what it was. -/
theorem resolveInstruction_plain {l : Layout} {linker : Bool} {here : Nat} {i r : Instruction}
    {bytes : List UInt8} (h : l.resolveInstruction linker here i = .ok (r, bytes))
    (hplain : ∀ o ∈ i.operands, o.isSymbolic = false) : r = i := by
  obtain ⟨slots, operands, hform, hops, rfl⟩ := resolveInstruction_ok h
  rw [resolveOperands_plain (Mnemonic.formOfLength_some hform).2 hplain] at hops
  cases hops
  rfl

end Layout

namespace Emission

/-- Selected code at one place of the source. -/
def ofCode (comment : Option String) (l : Location) (is : List Instruction) : List Emission :=
  is.map fun i => .instruction ⟨l, i.withComment comment⟩

variable (c : Option String) (l : Location)

@[simp] theorem ofCode_nil : ofCode c l [] = [] := rfl

@[simp] theorem ofCode_cons (i : Instruction) (is : List Instruction) :
    ofCode c l (i :: is) = .instruction ⟨l, i.withComment c⟩ :: ofCode c l is := rfl

@[simp] theorem ofCode_append (is js : List Instruction) :
    ofCode c l (is ++ js) = ofCode c l is ++ ofCode c l js :=
  List.map_append

end Emission

/-- Lines of a layout as program memory, from `origin` to `stop`. -/
structure Flash (μ : Type) extends Machine μ where
  layout : Layout
  linker : Bool
  origin : Nat
  stop : Nat
  near : stop < origin + 0x80000000

namespace Flash

variable (m : Flash μ)

/-- Addresses of instructions, and the one after the last. -/
def Holds (a : Nat) : Prop := a % 2 = m.origin % 2 ∧ m.origin ≤ a ∧ a ≤ m.stop

/-- Where a jump to the label leads. -/
def Target (name : String) (a : Nat) : Prop := m.layout.labels.lookup name = some a ∧ m.Holds a

/-- The emission lies at the address. -/
def At (a : Nat) : Emission → Prop
  | .label n => m.layout.labels.lookup n.value = some a
  | .instruction i =>
    ∃ r bytes, m.layout.resolveInstruction m.linker a i.value = .ok (r, bytes) ∧
      m.fetch a = some (r, i.value.size)
  | _ => True

/-- The emissions lie one after the other from the address on. -/
def Loaded : Nat → List Emission → Prop
  | a, [] => m.Holds a
  | a, e :: es => m.Holds a ∧ m.At a e ∧ Loaded (a + Emission.sizes [e]) es

variable {m} {a b : Nat}

theorem Loaded.holds {es : List Emission} (h : m.Loaded a es) : m.Holds a := by
  cases es with
  | nil => exact h
  | cons e es => exact h.1

theorem loaded_append {es fs : List Emission} :
    m.Loaded a (es ++ fs) ↔ m.Loaded a es ∧ m.Loaded (a + Emission.sizes es) fs := by
  induction es generalizing a with
  | nil => exact ⟨fun h => ⟨h.holds, h⟩, fun h => h.2⟩
  | cons e es ih =>
    have hsizes : a + Emission.sizes [e] + Emission.sizes es = a + Emission.sizes (e :: es) := by
      rw [Nat.add_assoc, ← Emission.sizes_append, List.singleton_append]
    simp only [List.cons_append, Loaded, ih, hsizes, and_assoc]

@[simp] theorem loaded_label {n : Located String} {es : List Emission} :
    m.Loaded a (.label n :: es) ↔ m.Target n.value a ∧ m.Loaded a es := by
  simp only [Loaded, At, Target, Emission.sizes_label, Emission.sizes_nil, Nat.add_zero]
  tauto

@[simp] theorem loaded_limit {s : SizeLimit} {es : List Emission} :
    m.Loaded a (.limit s :: es) ↔ m.Loaded a es := by
  simp only [Loaded, At, Emission.sizes_limit, Emission.sizes_nil, Nat.add_zero, true_and]
  exact ⟨fun h => h.2, fun h => ⟨h.holds, h⟩⟩

@[simp] theorem loaded_instruction {i : Located Instruction} {es : List Emission} :
    m.Loaded a (.instruction i :: es) ↔
      m.Holds a ∧ m.At a (.instruction i) ∧ m.Loaded (a + i.value.size) es := by
  simp only [Loaded, Emission.sizes_instruction, Emission.sizes_nil, Nat.add_zero]

/-- An instruction without symbols. -/
theorem At.fetch_plain {i : Located Instruction} (h : m.At a (.instruction i))
    (hplain : ∀ o ∈ i.value.operands, o.isSymbolic = false) :
    m.fetch a = some (i.value, i.value.size) := by
  obtain ⟨r, bytes, hr, hfetch⟩ := h
  rwa [Layout.resolveInstruction_plain hr hplain] at hfetch

theorem Target.aim {name : String} {slot : Slot} (ht : m.Target name b) (ha : m.Holds a)
    (hslot : slot.isRelative) : Machine.aim a (Layout.reference a b slot) = b := by
  have hnear := m.near
  obtain ⟨hparity, hlow, hhigh⟩ := ha
  obtain ⟨-, hparity', hlow', hhigh'⟩ := ht
  exact Layout.aim_reference_near hslot (hparity.trans hparity'.symm) (by omega) (by omega)

theorem Target.resolveOperand {name : String} {slot : Slot} (ht : m.Target name b) :
    m.layout.resolveOperand m.linker a slot (.label (.plain name)) =
      .ok (.number (Layout.reference a b slot)) := by
  have hfind : m.layout.find? (.plain name) = some b := by
    simp [Layout.find?, LabelRef.find?, LabelRef.candidates, LabelRef.plain, ht.1]
  simp only [Layout.resolveOperand, hfind]

/-- A jump to a label, its form being the one slot for a distance. -/
theorem At.fetch_jump {l : Location} {mnemonic : Mnemonic} {name : String} {c : Option String}
    {slot : Slot} (h : m.At a (.instruction ⟨l, mnemonic, [.label (.plain name)], c⟩))
    (hform : mnemonic.formOfLength? 1 = some [slot]) (ht : m.Target name b) :
    m.fetch a = some (⟨mnemonic, [.number (Layout.reference a b slot)], c⟩, mnemonic.size) := by
  obtain ⟨r, bytes, hr, hfetch⟩ := h
  obtain ⟨slots, operands, hslots, hops, rfl⟩ := Layout.resolveInstruction_ok hr
  obtain rfl : [slot] = slots := Option.some.inj (hform.symm.trans hslots)
  simp only [Layout.resolveOperands, ht.resolveOperand, bind_ok, pure_ok] at hops
  obtain ⟨_, ⟨⟩, _, ⟨⟩, rfl⟩ := hops
  exact hfetch

/-- The same with a number before the label. -/
theorem At.fetch_jumpOn {l : Location} {mnemonic : Mnemonic} {k : Int32} {name : String}
    {c : Option String} {first slot : Slot}
    (h : m.At a (.instruction ⟨l, mnemonic, [.number k, .label (.plain name)], c⟩))
    (hform : mnemonic.formOfLength? 2 = some [first, slot]) (ht : m.Target name b) :
    m.fetch a =
      some (⟨mnemonic, [.number k, .number (Layout.reference a b slot)], c⟩, mnemonic.size) := by
  obtain ⟨r, bytes, hr, hfetch⟩ := h
  obtain ⟨slots, operands, hslots, hops, rfl⟩ := Layout.resolveInstruction_ok hr
  obtain rfl : [first, slot] = slots := Option.some.inj (hform.symm.trans hslots)
  simp only [Layout.resolveOperands, ht.resolveOperand, bind_ok, pure_ok] at hops
  obtain ⟨_, ⟨⟩, _, ⟨_, ⟨⟩, _, ⟨⟩, rfl⟩, rfl⟩ := hops
  exact hfetch

section

variable {l : Location} {c : Option String} {name : String} {s : State μ}

theorem step_rjmp (ha : m.Holds a)
    (h : m.At a (.instruction ⟨l, .rjmp, [.label (.plain name)], c⟩)) (ht : m.Target name b) :
    m.step ⟨a, s⟩ = some ⟨b, s⟩ := by
  have hfetch := h.fetch_jump rfl ht
  have haim : Machine.aim a (Layout.reference a b .rel12) = b := ht.aim ha rfl
  simp only [Machine.step, hfetch, Instruction.control, haim]

theorem step_branch {mnemonic : Mnemonic} {flag : Nat} {value : Bool} (ha : m.Holds a)
    (h : m.At a (.instruction ⟨l, mnemonic, [.label (.plain name)], c⟩))
    (hbranch : mnemonic.branch? = some (flag, value)) (ht : m.Target name b) :
    m.step ⟨a, s⟩ = some ⟨if s.cpu.status.bit flag = value then b else a + 2, s⟩ := by
  have hform : mnemonic.formOfLength? 1 = some [.rel7] ∧ mnemonic.size = 2 := by
    cases mnemonic <;> cases hbranch <;> exact ⟨rfl, rfl⟩
  have hfetch := h.fetch_jump hform.1 ht
  have hcontrol : Instruction.control
      ⟨mnemonic, [.number (Layout.reference a b .rel7)], c⟩ =
        .branch flag value (Layout.reference a b .rel7) := by
    cases mnemonic <;> cases hbranch <;> rfl
  have haim : Machine.aim a (Layout.reference a b .rel7) = b := ht.aim ha rfl
  simp only [Machine.step, hfetch, hcontrol, haim, hform.2]

/-- A branch on a flag by its number. -/
theorem step_branchOn {value : Bool} {flag : Nat} (ha : m.Holds a)
    (h : m.At a (.instruction ⟨l, if value then .brbs else .brbc,
      [.number (Int32.ofNat flag), .label (.plain name)], c⟩))
    (hflag : flag < 8) (ht : m.Target name b) :
    m.step ⟨a, s⟩ = some ⟨if s.cpu.status.bit flag = value then b else a + 2, s⟩ := by
  have hnumber : (Int32.ofNat flag).toNatClampNeg = flag := by
    rw [Int32.toNatClampNeg_ofNat_of_lt (by omega)]
  have haim : Machine.aim a (Layout.reference a b .rel7) = b := ht.aim ha rfl
  cases value with
  | true =>
    change m.At a (.instruction ⟨l, .brbs, _, c⟩) at h
    have hfetch := h.fetch_jumpOn rfl ht
    simp only [Machine.step, hfetch, Instruction.control, haim, hnumber]
    rfl
  | false =>
    change m.At a (.instruction ⟨l, .brbc, _, c⟩) at h
    have hfetch := h.fetch_jumpOn rfl ht
    simp only [Machine.step, hfetch, Instruction.control, haim, hnumber]
    rfl

/-- A skip, with the size of what it skips. -/
theorem step_skip {i j : Located Instruction} {test : Cpu → Bool} (h : m.At a (.instruction i))
    (hplain : ∀ o ∈ i.value.operands, o.isSymbolic = false)
    (hcontrol : i.value.control = .skip test) (hnext : m.At (a + i.value.size) (.instruction j)) :
    m.step ⟨a, s⟩ =
      some ⟨if test s.cpu then a + i.value.size + j.value.size else a + i.value.size, s⟩ := by
  have hfetch := h.fetch_plain hplain
  obtain ⟨r, bytes, -, hfetch'⟩ := hnext
  simp only [Machine.step, hfetch, hcontrol, hfetch']
  split <;> rfl

theorem step_straight {i r : Instruction} {bytes : List UInt8}
    (hr : m.layout.resolveInstruction m.linker a i = .ok (r, bytes))
    (hfetch : m.fetch a = some (r, i.size)) (hstraight : i.mnemonic.isStraight) :
    m.step ⟨a, s⟩ = (r.perform m.effect s).map fun t => ⟨a + i.size, t⟩ := by
  obtain ⟨_, operands, -, -, rfl⟩ := Layout.resolveInstruction_ok hr
  have hcontrol : Instruction.control { i with operands } = .straight :=
    Instruction.control_of_isStraight hstraight
  simp only [Machine.step, hfetch, hcontrol]

/-- Instructions that are run one after the other. -/
theorem run_straight {is : List Instruction} {t : State μ} (h : m.Loaded a (Emission.ofCode c l is))
    (hplain : ∀ i ∈ is, ∀ o ∈ i.operands, o.isSymbolic = false)
    (hstraight : ∀ i ∈ is, i.mnemonic.isStraight)
    (hrun : is.foldlM (fun s i => i.perform m.effect s) s = some t) :
    m.run is.length ⟨a, s⟩ = some ⟨a + Emission.sizes (Emission.ofCode c l is), t⟩ := by
  induction is generalizing a s with
  | nil =>
    cases hrun
    rfl
  | cons i is ih =>
    rw [Emission.ofCode_cons] at h ⊢
    obtain ⟨-, ⟨r, bytes, hr, hfetch⟩, hrest⟩ := loaded_instruction.mp h
    rw [List.foldlM_cons] at hrun
    obtain ⟨u, hu, hrun⟩ := Option.bind_eq_some_iff.mp hrun
    have hstep := step_straight (s := s) hr hfetch (hstraight i (by simp))
    rw [Layout.resolveInstruction_plain hr (hplain i (by simp)), Instruction.perform_withComment,
      hu] at hstep
    have htail := ih hrest (fun i hi => hplain i (by simp [hi]))
      (fun i hi => hstraight i (by simp [hi])) hrun
    rw [List.length_cons, Machine.run, hstep]
    simpa [Nat.add_assoc] using htail

end

end Flash

namespace Emission

theorem even_sizes (es : List Emission) : sizes es % 2 = 0 := by
  rw [sizes]
  induction entries es with
  | nil => rfl
  | cons e es ih =>
    have he := e.even_size
    simp only [Entry.sizes, List.map_cons, List.sum_cons] at ih ⊢
    omega

end Emission

theorem Instruction.size_pos (i : Instruction) : 0 < i.size := by
  unfold size Mnemonic.size
  split <;> simp

theorem Layout.resolveInstruction_line {l : Layout} {linker : Bool} {x : Line} {i r : Instruction}
    (hr : l.resolveInstruction linker x.offset i = .ok (r, x.bytes))
    (hx : x.content = .instruction i r) : x.instruction? = some (r, i.size) := by
  rw [Line.instruction?, hx, length_resolveInstruction hr]

namespace Layout.Places

variable {l : Layout} {linker : Bool} {a : Nat} {es : List Emission} {xs : List Line}

theorem cons {e : Emission} (h : l.Places linker a (e :: es) xs) :
    ∃ ys zs, l.Places linker a [e] ys ∧ l.Places linker (a + Emission.sizes [e]) es zs ∧
      xs = ys ++ zs := by
  rw [← List.singleton_append] at h
  exact h.append

/-- What is laid down for one emission lies before what comes next. -/
theorem below_one {e : Emission} (h : l.Places linker a [e] xs) :
    ∀ x ∈ xs, x.instruction?.isSome → x.offset < a + Emission.sizes [e] := by
  cases e with
  | label n =>
    obtain ⟨x, ys, hx, hys, rfl⟩ := lines_cons h.lines
    cases hx
    cases hys
    simp [Line.instruction?]
  | instruction i =>
    obtain ⟨x, ys, r, rfl, hcontent, hr, hys, rfl⟩ := h.instruction
    cases hys.nil
    simpa using fun _ => i.value.size_pos
  | data d =>
    obtain ⟨x, ys, hx, hys, rfl⟩ := lines_cons h.lines
    cases hys
    simp only [line] at hx
    split at hx
    · cases hx
      simp [Line.instruction?]
    · cases hx
  | _ =>
    cases h.lines
    simp

/-- All that is laid down lies before what comes next. -/
theorem below (h : l.Places linker a es xs) :
    ∀ x ∈ xs, x.instruction?.isSome → x.offset < a + Emission.sizes es := by
  induction es generalizing a xs with
  | nil =>
    cases h.nil
    simp
  | cons e es ih =>
    obtain ⟨ys, zs, hys, hzs, rfl⟩ := cons h
    have hsizes : Emission.sizes (e :: es) = Emission.sizes [e] + Emission.sizes es :=
      Emission.sizes_append [e] es
    intro x hx hi
    rcases List.mem_append.mp hx with hx | hx
    · have := below_one hys x hx hi
      omega
    · have := ih hzs x hx hi
      omega

/-- Code that is in memory from `a` on, with nothing but earlier code before it. -/
theorem loaded {m : Flash μ} {a : Nat} {es : List Emission} {xs before : List Line}
    (h : m.layout.Places m.linker a es xs) (hcode : m.code = before ++ xs)
    (hbefore : ∀ x ∈ before, x.instruction?.isSome → x.offset < a) (ha : m.Holds a)
    (hstop : a + Emission.sizes es ≤ m.stop) : m.Loaded a es := by
  induction es generalizing a xs before with
  | nil => exact ha
  | cons e es ih =>
    obtain ⟨ys, zs, hys, hzs, rfl⟩ := cons h
    have hsizes : Emission.sizes (e :: es) = Emission.sizes [e] + Emission.sizes es :=
      Emission.sizes_append [e] es
    have heven := Emission.even_sizes [e]
    obtain ⟨hparity, hlow, hhigh⟩ := ha
    rw [← List.append_assoc] at hcode
    refine ⟨⟨hparity, hlow, hhigh⟩, ?_, ih hzs hcode ?_ ⟨by omega, by omega, by omega⟩ (by omega)⟩
    · cases e with
      | label n => exact hys.label.1
      | instruction i =>
        obtain ⟨x, _, r, rfl, hcontent, hr, -, rfl⟩ := hys.instruction
        refine ⟨r, x.bytes, hr, ?_⟩
        exact Machine.fetch_append (by simpa using hcode) hbefore
          (resolveInstruction_line hr hcontent)
      | _ => trivial
    · intro x hx hi
      rcases List.mem_append.mp hx with hx | hx
      · have := hbefore x hx hi
        omega
      · exact below_one hys x hx hi

end Layout.Places

end Avr
