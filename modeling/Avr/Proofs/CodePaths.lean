import Avr.Proofs.ControlMachine
import Avr.Proofs.QuietCode

namespace Avr

/-- Registers and stack, and how often it was pushed to and popped from. -/
structure Frame where
  regs : Reg → Byte
  stack : List Byte
  pushes : Nat := 0
  pops : Nat := 0

namespace Frame

def push (s : Frame) (r : Reg) : Frame :=
  { s with stack := s.regs r :: s.stack, pushes := s.pushes + 1 }

/-- The register takes the byte off the stack, and this is what is left of it. -/
def pop (s : Frame) (r : Reg) (b : Byte) (stack : List Byte) : Frame :=
  { s with regs := Function.update s.regs r b, stack, pops := s.pops + 1 }

end Frame

namespace Mnemonic

def isStack : Mnemonic → Bool
  | push | pop => true
  | _ => false

def isSkip : Mnemonic → Bool
  | cpse | sbrc | sbrs | sbic | sbis => true
  | _ => false

/-- Jumps, or goes straight on, by a flag. -/
def isBranch (m : Mnemonic) : Bool := m = brbs || m = brbc || m.branch?.isSome

def isJump (m : Mnemonic) : Bool := m = rjmp || m = jmp || m.isBranch

end Mnemonic

/-- The label that comes last, where jumps have their target. -/
def Instruction.label? (i : Instruction) : Option LabelRef :=
  match i.operands.getLast? with
  | some (.label ref) => some ref
  | _ => none

namespace Emission

/-- Takes up no space. -/
def isMark : Emission → Bool
  | label _ | limit _ => true
  | _ => false

/-- What comes after the label. -/
def after? (name : String) : List Emission → Option (List Emission)
  | [] => none
  | e :: es => if e.label? = some name then some es else after? name es

/-- Where a jump to the label leads inside the code. -/
def target? (code : List Emission) (ref : LabelRef) : Option (List Emission) :=
  ref.candidates.findSome? fun name => after? name code

/-- What comes after the next instruction. -/
def skip? : List Emission → Option (List Emission)
  | [] => none
  | e :: es => if e.isInstruction then some es else skip? es

end Emission

/-- How control leaves a piece of code. -/
inductive Way
  /-- Over its end. -/
  | done
  /-- To a label that is not in it. -/
  | jump (target : LabelRef)
  /-- By a skip of what comes after it. -/
  | past

/-- What is still to come, and the frame. -/
structure Point where
  rest : List Emission
  frame : Frame

/-- A step inside the code. -/
inductive Step (code : List Emission) : Point → Point → Prop
  | mark {e : Emission} {rest : List Emission} {s : Frame} (mark : e.isMark) :
    Step code ⟨e :: rest, s⟩ ⟨rest, s⟩
  | push {l : Location} {c : Option String} {r : Reg} {rest : List Emission} {s : Frame} :
    Step code ⟨.instruction ⟨l, .push, [.reg r], c⟩ :: rest, s⟩ ⟨rest, s.push r⟩
  | pop {l : Location} {c : Option String} {r : Reg} {rest : List Emission} {s : Frame} {b : Byte}
    {stack : List Byte} (found : s.stack = b :: stack) :
    Step code ⟨.instruction ⟨l, .pop, [.reg r], c⟩ :: rest, s⟩ ⟨rest, s.pop r b stack⟩
  | straight {i : Located Instruction} {rest : List Emission} {s : Frame} (regs : Reg → Byte)
    (straight : i.value.mnemonic.isStraight) (still : i.value.mnemonic.isStack = false) :
    Step code ⟨.instruction i :: rest, s⟩ ⟨rest, { s with regs }⟩
  | fall {i : Located Instruction} {rest : List Emission} {s : Frame}
    (either : i.value.mnemonic.isBranch ∨ i.value.mnemonic.isSkip) :
    Step code ⟨.instruction i :: rest, s⟩ ⟨rest, s⟩
  | jump {i : Located Instruction} {rest rest' : List Emission} {s : Frame} {ref : LabelRef}
    (jump : i.value.mnemonic.isJump) (label : i.value.label? = some ref)
    (found : Emission.target? code ref = some rest') :
    Step code ⟨.instruction i :: rest, s⟩ ⟨rest', s⟩
  | skip {i : Located Instruction} {rest rest' : List Emission} {s : Frame}
    (skip : i.value.mnemonic.isSkip) (found : Emission.skip? rest = some rest') :
    Step code ⟨.instruction i :: rest, s⟩ ⟨rest', s⟩

/-- A step out of the code. -/
inductive Leaves (code : List Emission) : Point → Way → Prop
  | done {s : Frame} : Leaves code ⟨[], s⟩ .done
  | jump {i : Located Instruction} {rest : List Emission} {s : Frame} {ref : LabelRef}
    (jump : i.value.mnemonic.isJump) (label : i.value.label? = some ref)
    (outside : Emission.target? code ref = none) :
    Leaves code ⟨.instruction i :: rest, s⟩ (.jump ref)
  | past {i : Located Instruction} {rest : List Emission} {s : Frame}
    (skip : i.value.mnemonic.isSkip) (outside : Emission.skip? rest = none) :
    Leaves code ⟨.instruction i :: rest, s⟩ .past

/-- From the point, control can leave the code in this way and with this frame. -/
inductive Path (code : List Emission) : Point → Way → Frame → Prop
  | leave {p : Point} {w : Way} (leave : Leaves code p w) : Path code p w p.frame
  | step {p q : Point} {w : Way} {t : Frame} (step : Step code p q) (next : Path code q w t) :
    Path code p w t

namespace Emission

variable {name : String} {es : List Emission}

@[simp] theorem target_plain (code : List Emission) (name : String) :
    target? code (.plain name) = after? name code := by
  simp [target?, LabelRef.plain, LabelRef.candidates]

theorem after_append_of_none (h : ∀ e ∈ es, e.label? ≠ some name) (fs : List Emission) :
    after? name (es ++ fs) = after? name fs := by
  induction es with
  | nil => rfl
  | cons e es ih =>
    rw [List.cons_append, after?, if_neg (h e (by simp)), ih fun e he => h e (by simp [he])]

theorem after_eq_none (h : ∀ e ∈ es, e.label? ≠ some name) : after? name es = none := by
  have happend := after_append_of_none h []
  rwa [List.append_nil] at happend

/-- A label that is there is found, with all that comes after it. -/
theorem exists_after_append (h : ∃ e ∈ es, e.label? = some name) (fs : List Emission) :
    ∃ ys, ys <:+ es ∧ after? name (es ++ fs) = some (ys ++ fs) := by
  induction es with
  | nil => simp at h
  | cons e es ih =>
    by_cases he : e.label? = some name
    · exact ⟨es, List.suffix_cons e es, by rw [List.cons_append, after?, if_pos he]⟩
    · obtain ⟨ys, hys, hafter⟩ := ih (by simpa [he] using h)
      refine ⟨ys, hys.trans (List.suffix_cons e es), ?_⟩
      rw [List.cons_append, after?, if_neg he, hafter]

/-- The next instruction is one of the code if it has any. -/
theorem exists_skip_append (h : es.any isInstruction) (fs : List Emission) :
    ∃ ys, ys <:+ es ∧ skip? (es ++ fs) = some (ys ++ fs) := by
  induction es with
  | nil => cases h
  | cons e es ih =>
    by_cases he : e.isInstruction
    · exact ⟨es, List.suffix_cons e es, by rw [List.cons_append, skip?, if_pos he]⟩
    · obtain ⟨ys, hys, hskip⟩ := ih (by simpa [he] using h)
      refine ⟨ys, hys.trans (List.suffix_cons e es), ?_⟩
      rw [List.cons_append, skip?, if_neg he, hskip]

end Emission

/-- The instruction leaves the stack alone, jumps to known labels only, and if it is a skip then
there is an instruction to skip. -/
inductive Instruction.Stays (known : String → Prop) (rest : List Emission) (i : Instruction) : Prop
  | straight (straight : i.mnemonic.isStraight) (still : i.mnemonic.isStack = false)
  | jump {name : String} (jump : i.mnemonic.isJump) (label : i.label? = some (.plain name))
    (known : known name)
  | skip (skip : i.mnemonic.isSkip) (next : rest.any Emission.isInstruction)

namespace Mnemonic

theorem isStack_of_isJump {m : Mnemonic} (h : m.isJump) : m.isStack = false := by
  cases m <;> first | rfl | cases h

theorem isStack_of_isSkip {m : Mnemonic} (h : m.isSkip) : m.isStack = false := by
  cases m <;> first | rfl | cases h

theorem isJump_false_of_isStraight {m : Mnemonic} (h : m.isStraight) : m.isJump = false := by
  cases m <;> first | rfl | cases h

theorem isSkip_of_isStraight {m : Mnemonic} (h : m.isStraight) : m.isSkip = false := by
  cases m <;> first | rfl | cases h

theorem isSkip_of_isJump {m : Mnemonic} (h : m.isJump) : m.isSkip = false := by
  cases m <;> first | rfl | cases h

end Mnemonic

namespace Instruction.Stays

variable {known known' : String → Prop} {rest : List Emission} {i : Instruction}

theorem isStack (h : i.Stays known rest) : i.mnemonic.isStack = false := by
  cases h with
  | straight _ hstill => exact hstill
  | jump hjump => exact Mnemonic.isStack_of_isJump hjump
  | skip hskip => exact Mnemonic.isStack_of_isSkip hskip

theorem label (h : i.Stays known rest) (hjump : i.mnemonic.isJump) :
    ∃ name, i.label? = some (.plain name) ∧ known name := by
  cases h with
  | straight hstraight => simp [Mnemonic.isJump_false_of_isStraight hstraight] at hjump
  | jump _ hlabel hknown => exact ⟨_, hlabel, hknown⟩
  | skip hskip => simp [Mnemonic.isSkip_of_isJump hjump] at hskip

theorem next (h : i.Stays known rest) (hskip : i.mnemonic.isSkip) :
    rest.any Emission.isInstruction := by
  cases h with
  | straight hstraight => simp [Mnemonic.isSkip_of_isStraight hstraight] at hskip
  | jump hjump => simp [Mnemonic.isSkip_of_isJump hjump] at hskip
  | skip _ hnext => exact hnext

end Instruction.Stays

theorem Instruction.Stays.mono {known known' : String → Prop} {es fs : List Emission}
    {i : Instruction} (h : i.Stays known es) (hknown : ∀ n, known n → known' n) :
    i.Stays known' (es ++ fs) := by
  cases h with
  | straight hstraight hstill => exact .straight hstraight hstill
  | jump hjump hlabel hn => exact .jump hjump hlabel (hknown _ hn)
  | skip hskip hnext => exact .skip hskip (by simp [List.any_append, hnext])

namespace Emission

/-- All instructions stay, and else there are only marks. -/
def Stays (known : String → Prop) : List Emission → Prop
  | [] => True
  | .instruction i :: es => i.value.Stays known es ∧ Stays known es
  | e :: es => e.isMark ∧ Stays known es

variable {known known' : String → Prop} {es fs : List Emission}

theorem Stays.mono (h : Stays known es) (hknown : ∀ n, known n → known' n) : Stays known' es := by
  induction es with
  | nil => trivial
  | cons e es ih =>
    cases e with
    | instruction i => exact ⟨List.append_nil es ▸ h.1.mono hknown, ih h.2⟩
    | _ => exact ⟨h.1, ih h.2⟩

theorem Stays.append (hes : Stays known es) (hfs : Stays known fs) : Stays known (es ++ fs) := by
  induction es with
  | nil => exact hfs
  | cons e es ih =>
    cases e with
    | instruction i => exact ⟨hes.1.mono fun _ h => h, ih hes.2⟩
    | _ => exact ⟨hes.1, ih hes.2⟩

theorem Stays.suffix (h : Stays known es) (hfs : fs <:+ es) : Stays known fs := by
  obtain ⟨xs, rfl⟩ := hfs
  induction xs with
  | nil => exact h
  | cons e xs ih =>
    cases e with
    | instruction i => exact ih h.2
    | _ => exact ih h.2

end Emission

/-- Code with a part that stays in it, and labels outside that it may jump to. -/
structure Encloses (outer : String → Prop) (front body tail : List Emission) : Prop where
  plain : ∀ e ∈ front, e.label? = none
  stays : Emission.Stays (fun n => (∃ e ∈ body, e.label? = some n) ∨ outer n) body
  apart : ∀ n, outer n → ∀ e ∈ front ++ body ++ tail, e.label? ≠ some n

namespace Encloses

variable {outer : String → Prop} {front body tail : List Emission}

/-- Labels of the part are in it, and the others are not in the code. -/
theorem target (h : Encloses outer front body tail) {n : String}
    (hn : (∃ e ∈ body, e.label? = some n) ∨ outer n) :
    (∃ ys, ys <:+ body ∧
      Emission.target? (front ++ body ++ tail) (.plain n) = some (ys ++ tail)) ∨
      outer n ∧ Emission.target? (front ++ body ++ tail) (.plain n) = none := by
  rw [Emission.target_plain]
  rcases hn with hbody | houter
  · obtain ⟨ys, hys, hafter⟩ := Emission.exists_after_append hbody tail
    refine .inl ⟨ys, hys, ?_⟩
    rw [List.append_assoc, Emission.after_append_of_none, hafter]
    intro e he
    simp [h.plain e he]
  · exact .inr ⟨houter, Emission.after_eq_none (h.apart n houter)⟩

/-- One step from inside the part stays in it or goes over its end. -/
theorem step (h : Encloses outer front body tail) {e : Emission} {ys : List Emission}
    (hys : e :: ys <:+ body) {s : Frame} {q : Point}
    (hstep : Step (front ++ body ++ tail) ⟨e :: ys ++ tail, s⟩ q) :
    ∃ zs regs, zs <:+ body ∧ q = ⟨zs ++ tail, { s with regs }⟩ := by
  have hrest : ys <:+ body := (List.suffix_cons e ys).trans hys
  have hstays := h.stays.suffix hys
  cases hstep with
  | mark => exact ⟨ys, s.regs, hrest, rfl⟩
  | push => cases hstays.1.isStack
  | pop => cases hstays.1.isStack
  | straight regs => exact ⟨ys, regs, hrest, rfl⟩
  | fall => exact ⟨ys, s.regs, hrest, rfl⟩
  | jump hjump hlabel hfound =>
    obtain ⟨name, hname, hknown⟩ := hstays.1.label hjump
    cases hlabel.symm.trans hname
    rcases h.target hknown with ⟨zs, hzs, htarget⟩ | ⟨-, htarget⟩
    · cases hfound.symm.trans htarget
      exact ⟨zs, s.regs, hzs, rfl⟩
    · cases hfound.symm.trans htarget
  | skip hskip hfound =>
    obtain ⟨zs, hzs, hnext⟩ := Emission.exists_skip_append (hstays.1.next hskip) tail
    cases hfound.symm.trans hnext
    exact ⟨zs, s.regs, hzs.trans hrest, rfl⟩

/-- Control leaves the part only to the labels outside. -/
theorem leaves (h : Encloses outer front body tail) {e : Emission} {ys : List Emission}
    (hys : e :: ys <:+ body) {s : Frame} {w : Way}
    (hleaves : Leaves (front ++ body ++ tail) ⟨e :: ys ++ tail, s⟩ w) :
    ∃ n, outer n ∧ w = .jump (.plain n) := by
  have hstays := h.stays.suffix hys
  cases hleaves with
  | jump hjump hlabel houtside =>
    obtain ⟨name, hname, hknown⟩ := hstays.1.label hjump
    cases hlabel.symm.trans hname
    rcases h.target hknown with ⟨zs, -, htarget⟩ | ⟨hn, -⟩
    · cases houtside.symm.trans htarget
    · exact ⟨name, hn, rfl⟩
  | past hskip houtside =>
    obtain ⟨zs, -, hnext⟩ := Emission.exists_skip_append (hstays.1.next hskip) tail
    cases houtside.symm.trans hnext

/-- Along every path through the part the stack is left alone, until control goes on after the part
or leaves the code to a label outside. -/
theorem path (h : Encloses outer front body tail) {ys : List Emission} (hys : ys <:+ body)
    {s t : Frame} {w : Way} (hpath : Path (front ++ body ++ tail) ⟨ys ++ tail, s⟩ w t) :
    (∃ regs, Path (front ++ body ++ tail) ⟨tail, { s with regs }⟩ w t) ∨
      ∃ n regs, outer n ∧ w = .jump (.plain n) ∧ t = { s with regs } := by
  generalize hp : (⟨ys ++ tail, s⟩ : Point) = p at hpath
  induction hpath generalizing ys s with
  | leave hleaves =>
    subst hp
    cases ys with
    | nil => exact .inl ⟨s.regs, .leave hleaves⟩
    | cons e ys =>
      obtain ⟨n, hn, rfl⟩ := h.leaves hys hleaves
      exact .inr ⟨n, s.regs, hn, rfl, rfl⟩
  | step hstep hnext ih =>
    subst hp
    cases ys with
    | nil => exact .inl ⟨s.regs, .step hstep hnext⟩
    | cons e ys =>
      obtain ⟨zs, regs, hzs, rfl⟩ := h.step hys hstep
      exact ih (s := { s with regs }) hzs rfl

end Encloses

end Avr
