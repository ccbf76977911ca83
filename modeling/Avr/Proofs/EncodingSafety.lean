import Mathlib.Data.Nat.PSub
import Avr.Proofs.Decoder

namespace Avr

open Outcome

namespace Slot

/-- The number that is put in the field of an operand. -/
def content? : Slot → Operand → Option Nat
  | reg, .reg r => some r.number
  | highReg, .reg r | mulReg, .reg r => r.number.psub 16
  | evenPair, .reg r => some (r.number / 2)
  | evenPair, .pair p => some (p.low.number / 2)
  | wordPair, .reg r => do return (← r.number.psub 24) / 2
  | wordPair, .pair p => do return (← p.low.number.psub 24) / 2
  | imm8, .number k => some (k.toInt % 256).toNat
  | rel7, .number k => some (k.toInt % 128).toNat
  | rel12, .number k => some (k.toInt % 4096).toNat
  | imm6, .number k | bit, .number k | statusBit, .number k | io6, .number k | io5, .number k
  | data16, .number k | abs22, .number k => k.toInt.toNat?
  | displaced, .displaced _ q => q.toInt.toNat?
  | displaced, .pointer (.plain _) => some 0
  | _, _ => none

end Slot

/-- The words of an instruction before they are put together. -/
structure Draft where
  code : Word
  /-- Numbers, and where their bits go. -/
  fields : List (Positions × Nat)
  second : Option Nat := none

/-- The positions are different bits of a word, all of them zero. -/
def Word.Free (code : Word) (ps : Positions) : Prop :=
  ps.Nodup ∧ ∀ i ∈ ps, i < 16 ∧ code.getLsbD i = false

instance (code : Word) (ps : Positions) : Decidable (code.Free ps) :=
  inferInstanceAs (Decidable (_ ∧ _))

namespace Draft

def word (d : Draft) : Word := d.code.overlay d.fields

def encoding (d : Draft) : Encoding :=
  match d.second with
  | none => .single d.word
  | some n => .double d.word (BitVec.ofNat 16 n)

def positions (d : Draft) : Positions := d.fields.flatMap Prod.fst

/-- Nothing is cut off, and nothing reaches into the opcode or into another field. -/
structure Fits (d : Draft) : Prop where
  free : d.code.Free d.positions
  fields : ∀ f ∈ d.fields, f.2 < 2 ^ f.1.length
  second : ∀ n ∈ d.second, n < 2 ^ 16

variable {d : Draft}

theorem Fits.extract_word (h : d.Fits) {f : Positions × Nat} (hf : f ∈ d.fields) :
    f.1.extract d.word = f.2 := by
  rw [word, Word.extract_overlay h.free.1 h.free.2 hf]
  exact Nat.mod_eq_of_lt (h.fields f hf)

theorem getLsbD_word {i : Nat} (hi : i ∉ d.positions) : d.word.getLsbD i = d.code.getLsbD i :=
  Word.getLsbD_overlay_of_not_mem hi

end Draft

namespace WordLayout

def fieldsOf? : List Positions → List Slot → List Operand → Option (List (Positions × Nat))
  | [], [], [] => some []
  | p :: ps, s :: ss, o :: os => do return (p, ← s.content? o) :: (← fieldsOf? ps ss os)
  | _, _, _ => none

/-- What the operand with this number puts in a field. -/
def contentAt? (operands : List Operand) (k : Nat) (s : Slot) : Option Nat :=
  operands[k]? >>= s.content?

def pointerAt? (operands : List Operand) (k : Nat) : Option Pointer :=
  match operands[k]? with
  | some (.pointer p) => some p
  | _ => none

/-- The index register of the operand with this number. -/
def baseAt? (operands : List Operand) (k : Nat) : Option Base :=
  match operands[k]? with
  | some (.displaced b _) | some (.pointer (.plain b)) => some b
  | _ => none

open Positions in
def draft? (slots : List Slot) (operands : List Operand) (layout : WordLayout) : Option Draft := do
  let content := contentAt? operands
  match layout with
  | fields code ps => return { code, fields := ← fieldsOf? ps slots operands }
  | twice code =>
    let d ← content 0 .reg
    return { code, fields := [(d5, d), (r5, d)] }
  | complement code =>
    let d ← content 0 .highReg
    let k ← content 1 .imm8
    return { code, fields := [(d4, d), (k8, ← Nat.psub 255 k)] }
  | far code =>
    let k ← content 0 .abs22
    return { code, fields := [(far6, k / 65536)], second := some (k % 65536) }
  | load code => return { code, fields := [(d5, ← content 0 .reg)], second := ← content 1 .data16 }
  | store code => return { code, fields := [(d5, ← content 1 .reg)], second := ← content 0 .data16 }
  | loadIndirect =>
    let p ← pointerAt? operands 1
    return { code := p.code, fields := [(d5, ← content 0 .reg)] }
  | storeIndirect =>
    let p ← pointerAt? operands 0
    return { code := p.code ||| storeBit, fields := [(d5, ← content 1 .reg)] }
  | loadDisplaced =>
    let b ← baseAt? operands 1
    return { code := (Pointer.plain b).code
             fields := [(q6, ← content 1 .displaced), (d5, ← content 0 .reg)] }
  | storeDisplaced =>
    let b ← baseAt? operands 0
    return { code := (Pointer.plain b).code ||| storeBit
             fields := [(q6, ← content 0 .displaced), (d5, ← content 1 .reg)] }
  | loadProgram bare plain increment =>
    match operands[1]? with
    | none => return { code := bare, fields := [] }
    | some (.pointer (.postIncrement _)) =>
      return { code := increment, fields := [(d5, ← content 0 .reg)] }
    | some _ => return { code := plain, fields := [(d5, ← content 0 .reg)] }

end WordLayout

theorem toInt_emod (k : Int32) {w : Nat} (hw : w ≤ 32) :
    k.toInt % 2 ^ w = (k.toBitVec.toNat % 2 ^ w : Nat) := by
  have hwhole : k.toInt % 2 ^ 32 = k.toBitVec.toNat := by
    have hk : k.toInt = k.toBitVec.toInt := rfl
    have hlt := k.toBitVec.isLt
    rw [hk, BitVec.toInt_eq_toNat_cond]
    split <;> omega
  have hdvd : (2 : Int) ^ w ∣ 2 ^ 32 := pow_dvd_pow 2 hw
  rw [← Int.emod_emod_of_dvd k.toInt hdvd, hwhole]
  norm_cast

namespace Slot

theorem toInt_of_nonneg {k : Int32} (h : 0 ≤ k.toInt) : k.toInt = k.toBitVec.toNat := by
  have hlt := k.toInt_lt
  have hmod := toInt_emod k (w := 32) (Nat.le_refl 32)
  have := k.toBitVec.isLt
  omega

/-- Slots for numbers from zero on. -/
theorem takes_natural {s : Slot} {o : Operand} {max : Int32} {w : Nat}
    (hrange : s.range? = some (0, max)) (hmax : max.toInt < 2 ^ w) (h : s.Takes o) :
    ∃ k, o = .number k ∧ k.toInt.toNat? = some k.toBitVec.toNat ∧ k.toBitVec.toNat < 2 ^ w := by
  obtain ⟨k, rfl, hmin, hk⟩ := takes_number hrange h
  have htoInt := toInt_of_nonneg hmin
  refine ⟨k, rfl, congrArg Int.toNat? htoInt, ?_⟩
  have hlt : (k.toBitVec.toNat : Int) < 2 ^ w := htoInt ▸ Int.lt_of_le_of_lt hk hmax
  exact_mod_cast hlt

/-- What is kept of an operand in its field is what belongs there. -/
theorem content_eq {s : Slot} {o : Operand} (hs : s.fieldBits ≠ 0) (h : s.Takes o) :
    s.content? o = some (o.bits s % 2 ^ s.fieldBits) := by
  cases s with
  | reg =>
    obtain ⟨r, rfl⟩ := takes_reg h
    have hlt : r.number < 32 := r.index.isLt
    exact congrArg some (Nat.mod_eq_of_lt hlt).symm
  | highReg =>
    obtain ⟨r, rfl, hr⟩ := takes_highReg h
    have hlt : r.number < 32 := r.index.isLt
    refine Nat.psub_eq_some.mpr ?_
    change r.number % 16 + 16 = r.number
    omega
  | mulReg =>
    obtain ⟨r, rfl, hmin, hmax⟩ := takes_mulReg h
    refine Nat.psub_eq_some.mpr ?_
    change r.number % 8 + 16 = r.number
    omega
  | evenPair =>
    rcases takes_evenPair h with ⟨p, rfl⟩ | ⟨r, rfl, -⟩
    · have hlt := p.half.isLt
      refine congrArg some ?_
      change 2 * p.half.val / 2 = p.half.val % 16
      omega
    · have hlt : r.number < 32 := r.index.isLt
      refine congrArg some ?_
      change r.number / 2 = r.number / 2 % 16
      omega
  | wordPair =>
    rcases takes_wordPair h with ⟨p, rfl, hp⟩ | ⟨r, rfl, hr, -⟩
    · have hlt := p.half.isLt
      have hsub : p.low.number.psub 24 = some (2 * (p.half.val - 12)) := by
        refine Nat.psub_eq_some.mpr ?_
        change 2 * (p.half.val - 12) + 24 = 2 * p.half.val
        omega
      change (p.low.number.psub 24).bind _ = some (p.half.val % 4)
      rw [hsub]
      refine congrArg some ?_
      omega
    · have hlt : r.number < 32 := r.index.isLt
      have hsub : r.number.psub 24 = some (r.number - 24) := Nat.psub_eq_some.mpr (by omega)
      change (r.number.psub 24).bind _ = some (r.number / 2 % 4)
      rw [hsub]
      refine congrArg some ?_
      omega
  | imm8 =>
    obtain ⟨k, rfl, -⟩ := takes_number rfl h
    exact congrArg (fun n : Int => some n.toNat) (toInt_emod k (w := 8) (by decide))
  | rel7 =>
    obtain ⟨k, rfl, -⟩ := takes_number rfl h
    exact congrArg (fun n : Int => some n.toNat) (toInt_emod k (w := 7) (by decide))
  | rel12 =>
    obtain ⟨k, rfl, -⟩ := takes_number rfl h
    exact congrArg (fun n : Int => some n.toNat) (toInt_emod k (w := 12) (by decide))
  | imm6 | io6 =>
    obtain ⟨k, rfl, hk, hlt⟩ := takes_natural (w := 6) rfl (by decide) h
    exact hk.trans (congrArg some (Nat.mod_eq_of_lt hlt).symm)
  | io5 =>
    obtain ⟨k, rfl, hk, hlt⟩ := takes_natural (w := 5) rfl (by decide) h
    exact hk.trans (congrArg some (Nat.mod_eq_of_lt hlt).symm)
  | bit | statusBit =>
    obtain ⟨k, rfl, hk, hlt⟩ := takes_natural (w := 3) rfl (by decide) h
    exact hk.trans (congrArg some (Nat.mod_eq_of_lt hlt).symm)
  | _ => exact (hs rfl).elim

theorem takes_displacement {o : Operand} (h : displaced.Takes o) :
    ∃ b, b ≠ .x ∧ (o = .pointer (.plain b) ∨ ∃ q, o = .displaced b q ∧
      q.toInt.toNat? = some q.toBitVec.toNat ∧ q.toBitVec.toNat < 64) := by
  obtain ⟨-, m, h⟩ := h
  cases o with
  | displaced b q =>
    have hb : b ≠ .x := by
      rintro rfl
      cases h
    have hq : 0 ≤ q ∧ q < 64 := by
      cases b with
      | x => cases h
      | y | z =>
        by_contra hq
        simp [check, hq] at h
    have hmin : 0 ≤ q.toInt := Int32.le_iff_toInt_le.mp hq.1
    have hmax : q.toInt < 64 := Int32.lt_iff_toInt_lt.mp hq.2
    have htoInt := toInt_of_nonneg hmin
    exact ⟨b, hb, .inr ⟨q, rfl, congrArg Int.toNat? htoInt, by omega⟩⟩
  | pointer p =>
    cases p with
    | plain b =>
      refine ⟨b, ?_, .inl rfl⟩
      rintro rfl
      cases h
    | _ => cases h
  | _ => cases h

theorem takes_pointer {o : Operand} (h : pointer.Takes o) : ∃ p, o = .pointer p := by
  obtain ⟨-, m, h⟩ := h
  cases o with
  | pointer p => exact ⟨p, rfl⟩
  | _ => cases h

theorem takes_programPointer {o : Operand} (h : programPointer.Takes o) :
    o = .pointer (.plain .z) ∨ o = .pointer (.postIncrement .z) := by
  obtain ⟨-, m, h⟩ := h
  cases o with
  | pointer p =>
    cases p with
    | plain b =>
      cases b with
      | z => exact .inl rfl
      | _ => cases h
    | postIncrement b =>
      cases b with
      | z => exact .inr rfl
      | _ => cases h
    | preDecrement b => cases h
  | _ => cases h

theorem takes_one {s : Slot} {os : List Operand} (h : List.Forall₂ Takes [s] os) :
    ∃ o, os = [o] ∧ s.Takes o := by
  cases h with
  | cons head tail =>
    cases tail
    exact ⟨_, rfl, head⟩

theorem takes_two {s t : Slot} {os : List Operand} (h : List.Forall₂ Takes [s, t] os) :
    ∃ o p, os = [o, p] ∧ s.Takes o ∧ t.Takes p := by
  cases h with
  | cons head tail =>
    obtain ⟨p, rfl, hp⟩ := takes_one tail
    exact ⟨_, p, rfl, head, hp⟩

end Slot

theorem Positions.deposit_mod (ps : Positions) (n : Nat) :
    ps.deposit (n % 2 ^ ps.length) = ps.deposit n := by
  induction ps generalizing n with
  | nil => rfl
  | cons p ps ih =>
    have hlow : n % (2 * 2 ^ ps.length) % 2 = n % 2 := Nat.mod_mul_right_mod n 2 _
    have hhigh : n % (2 * 2 ^ ps.length) / 2 = n / 2 % 2 ^ ps.length :=
      Nat.mod_mul_right_div_self n 2 _
    rw [deposit, deposit, List.length_cons, pow_succ', hlow, hhigh, ih]

namespace WordLayout

open Positions

/-- The layout has a field of the right size for each operand, and room for it. -/
def Suits (slots : List Slot) : WordLayout → Prop
  | fields code ps =>
    ps.map List.length = slots.map Slot.fieldBits ∧ (∀ s ∈ slots, s.fieldBits ≠ 0) ∧
      code.Free ps.flatten
  | twice code => slots = [.reg] ∧ code.Free (d5 ++ r5)
  | complement code => slots = [.highReg, .imm8] ∧ code.Free (d4 ++ k8)
  | far code => slots = [.abs22] ∧ code.Free far6
  | load code => slots = [.reg, .data16] ∧ code.Free d5
  | store code => slots = [.data16, .reg] ∧ code.Free d5
  | loadIndirect => slots = [.reg, .pointer]
  | storeIndirect => slots = [.pointer, .reg]
  | loadDisplaced => slots = [.reg, .displaced]
  | storeDisplaced => slots = [.displaced, .reg]
  | loadProgram _ plain increment =>
    slots = [] ∨ slots = [.reg, .programPointer] ∧ plain.Free d5 ∧ increment.Free d5

instance (slots : List Slot) : (layout : WordLayout) → Decidable (layout.Suits slots)
  | fields .. | twice _ | complement _ | far _ | load _ | store _ =>
    inferInstanceAs (Decidable (_ ∧ _))
  | loadIndirect | storeIndirect | loadDisplaced | storeDisplaced =>
    inferInstanceAs (Decidable (_ = _))
  | loadProgram .. => inferInstanceAs (Decidable (_ ∨ _))

/-- Every form of every mnemonic suits its layout. -/
theorem suits_layout {m : Mnemonic} {slots : List Slot} (h : slots ∈ m.forms) :
    m.layout.Suits slots := by
  have hall : ∀ m ∈ Mnemonic.all, ∀ slots ∈ m.forms, m.layout.Suits slots := by decide +kernel
  exact hall m m.mem_all slots h

/-- There is a draft whose words are those of the instruction. -/
def Drafted (slots : List Slot) (os : List Operand) (layout : WordLayout) : Prop :=
  ∃ d, layout.draft? slots os = some d ∧ d.Fits ∧ layout.assemble slots os = d.encoding

variable {slots : List Slot} {os : List Operand}

theorem fieldsOf_eq {ps : List Positions} (hlen : ps.map List.length = slots.map Slot.fieldBits)
    (hbits : ∀ s ∈ slots, s.fieldBits ≠ 0) (h : List.Forall₂ Slot.Takes slots os) :
    ∃ fs, fieldsOf? ps slots os = some fs ∧ fs.flatMap Prod.fst = ps.flatten ∧
      (∀ f ∈ fs, f.2 < 2 ^ f.1.length) ∧ ∀ code, place code ps slots os = code.overlay fs := by
  induction h generalizing ps with
  | nil =>
    obtain rfl : ps = [] := by simpa using hlen
    exact ⟨[], rfl, rfl, by simp, fun _ => rfl⟩
  | @cons s o slots os head _ ih =>
    obtain ⟨p, ps, rfl⟩ : ∃ p qs, ps = p :: qs := by
      cases ps with
      | nil => simp at hlen
      | cons p ps => exact ⟨p, ps, rfl⟩
    obtain ⟨hp, hlen⟩ : p.length = s.fieldBits ∧ ps.map List.length = slots.map Slot.fieldBits := by
      simpa using hlen
    obtain ⟨fs, hfs, hpositions, hfit, hplace⟩ := ih hlen fun t ht => hbits t (by simp [ht])
    have hcontent := Slot.content_eq (hbits s (by simp)) head
    rw [← hp] at hcontent
    refine ⟨(p, o.bits s % 2 ^ p.length) :: fs, ?_, ?_, ?_, ?_⟩
    · simp [fieldsOf?, hcontent, hfs]
    · simp [hpositions]
    · rintro f (_ | ⟨_, hf⟩)
      · exact Nat.mod_lt _ (Nat.two_pow_pos _)
      · exact hfit f hf
    · intro code
      rw [place, hplace, ← deposit_mod]
      rfl

theorem drafted_fields {code : Word} {ps : List Positions} (h : (fields code ps).Suits slots)
    (takes : List.Forall₂ Slot.Takes slots os) : (fields code ps).Drafted slots os := by
  obtain ⟨hlen, hbits, hfree⟩ := h
  obtain ⟨fs, hfs, hpositions, hfit, hplace⟩ := fieldsOf_eq hlen hbits takes
  refine ⟨{ code, fields := fs }, by simp [draft?, hfs], ⟨?_, hfit, by simp⟩, ?_⟩
  · change code.Free (fs.flatMap Prod.fst)
    rw [hpositions]
    exact hfree
  · exact congrArg Encoding.single (hplace code)

theorem drafted_twice {code : Word} (h : (twice code).Suits slots)
    (takes : List.Forall₂ Slot.Takes slots os) : (twice code).Drafted slots os := by
  obtain ⟨rfl, hfree⟩ := h
  obtain ⟨o, rfl, ho⟩ := Slot.takes_one takes
  obtain ⟨r, rfl⟩ := Slot.takes_reg ho
  have hlt : r.number < 32 := r.index.isLt
  refine ⟨{ code, fields := [(d5, r.number), (r5, r.number)] }, rfl, ⟨hfree, ?_, by simp⟩, rfl⟩
  simp [d5, r5, hlt]

theorem drafted_complement {code : Word} (h : (complement code).Suits slots)
    (takes : List.Forall₂ Slot.Takes slots os) : (complement code).Drafted slots os := by
  obtain ⟨rfl, hfree⟩ := h
  obtain ⟨o, p, rfl, ho, hp⟩ := Slot.takes_two takes
  have hk : Slot.content? .imm8 p = some (p.bits .imm8 % 256) := Slot.content_eq (by decide) hp
  have hsub : Nat.psub 255 (p.bits .imm8 % 256) = some (255 - p.bits .imm8 % 256) :=
    Nat.psub_eq_some.mpr (by omega)
  obtain ⟨r, rfl, -⟩ := Slot.takes_highReg ho
  have hd : Slot.content? .highReg (.reg r) = some (r.number % 16) :=
    Slot.content_eq (by decide) ho
  refine ⟨{ code, fields := [(d4, r.number % 16), (k8, 255 - p.bits .imm8 % 256)] }, ?_,
    ⟨hfree, ?_, by simp⟩, ?_⟩
  · simp [draft?, contentAt?, hd, hk, hsub]
  · simp only [List.mem_cons, List.not_mem_nil, or_false, forall_eq_or_imp, forall_eq, d4, k8,
      List.length_cons, List.length_nil]
    omega
  · exact congrArg (fun w => Encoding.single (code ||| w ||| _)) (deposit_mod d4 r.number).symm

theorem drafted_far {code : Word} (h : (far code).Suits slots)
    (takes : List.Forall₂ Slot.Takes slots os) : (far code).Drafted slots os := by
  obtain ⟨rfl, hfree⟩ := h
  obtain ⟨o, rfl, ho⟩ := Slot.takes_one takes
  obtain ⟨k, rfl, hk, hlt⟩ := Slot.takes_natural (w := 22) rfl (by decide) ho
  have hlow : BitVec.ofNat 16 k.toBitVec.toNat = BitVec.ofNat 16 (k.toBitVec.toNat % 65536) :=
    BitVec.eq_of_toNat_eq (by simp)
  refine ⟨{ code, fields := [(far6, k.toBitVec.toNat / 65536)],
            second := some (k.toBitVec.toNat % 65536) }, ?_, ⟨hfree, ?_, ?_⟩, ?_⟩
  · simp [draft?, contentAt?, Slot.content?, hk]
  · simp only [List.mem_singleton, forall_eq, far6, List.length_cons, List.length_nil]
    omega
  · simp only [Option.mem_some_iff, forall_eq']
    omega
  · exact congrArg (Encoding.double _) hlow

/-- A register over a free place, and nothing else in the word. -/
theorem fits_register {code : Word} (hfree : code.Free d5) (r : Reg) (second : Option Nat)
    (hsecond : ∀ n ∈ second, n < 2 ^ 16) :
    Draft.Fits { code, fields := [(d5, r.number)], second } := by
  have hlt : r.number < 32 := r.index.isLt
  refine ⟨hfree, ?_, hsecond⟩
  simp [d5, hlt]

theorem drafted_load {code : Word} (h : (load code).Suits slots)
    (takes : List.Forall₂ Slot.Takes slots os) : (load code).Drafted slots os := by
  obtain ⟨rfl, hfree⟩ := h
  obtain ⟨o, p, rfl, ho, hp⟩ := Slot.takes_two takes
  obtain ⟨r, rfl⟩ := Slot.takes_reg ho
  obtain ⟨k, rfl, hk, hlt⟩ := Slot.takes_natural (w := 16) rfl (by decide) hp
  refine ⟨_, ?_, fits_register hfree r (some k.toBitVec.toNat) (by simpa using hlt), rfl⟩
  simp [draft?, contentAt?, Slot.content?, hk]

theorem drafted_store {code : Word} (h : (store code).Suits slots)
    (takes : List.Forall₂ Slot.Takes slots os) : (store code).Drafted slots os := by
  obtain ⟨rfl, hfree⟩ := h
  obtain ⟨o, p, rfl, ho, hp⟩ := Slot.takes_two takes
  obtain ⟨k, rfl, hk, hlt⟩ := Slot.takes_natural (w := 16) rfl (by decide) ho
  obtain ⟨r, rfl⟩ := Slot.takes_reg hp
  refine ⟨_, ?_, fits_register hfree r (some k.toBitVec.toNat) (by simpa using hlt), rfl⟩
  simp [draft?, contentAt?, Slot.content?, hk]

theorem drafted_loadIndirect (h : loadIndirect.Suits slots)
    (takes : List.Forall₂ Slot.Takes slots os) : loadIndirect.Drafted slots os := by
  obtain rfl := h
  obtain ⟨o, p, rfl, ho, hp⟩ := Slot.takes_two takes
  obtain ⟨r, rfl⟩ := Slot.takes_reg ho
  obtain ⟨p, rfl⟩ := Slot.takes_pointer hp
  have hfree : ∀ p ∈ Pointer.all, p.code.Free d5 := by decide
  exact ⟨_, rfl, fits_register (hfree p p.mem_all) r none (by simp), rfl⟩

theorem drafted_storeIndirect (h : storeIndirect.Suits slots)
    (takes : List.Forall₂ Slot.Takes slots os) : storeIndirect.Drafted slots os := by
  obtain rfl := h
  obtain ⟨o, p, rfl, ho, hp⟩ := Slot.takes_two takes
  obtain ⟨p, rfl⟩ := Slot.takes_pointer ho
  obtain ⟨r, rfl⟩ := Slot.takes_reg hp
  have hfree : ∀ p ∈ Pointer.all, (p.code ||| storeBit).Free d5 := by decide
  exact ⟨_, rfl, fits_register (hfree p p.mem_all) r none (by simp), rfl⟩

/-- Whichever way it is written, the displacement is a number over the opcode of its base. -/
theorem displacedCode_eq {o : Operand} (h : Slot.displaced.Takes o) :
    ∃ b n, b ≠ .x ∧ n < 64 ∧ Slot.content? .displaced o = some n ∧
      (∀ os k, os[k]? = some o → baseAt? os k = some b) ∧
      o.displacedCode = (Pointer.plain b).code ||| q6.deposit n := by
  obtain ⟨b, hb, rfl | ⟨q, rfl, hq, hlt⟩⟩ := Slot.takes_displacement h
  · refine ⟨b, 0, hb, by decide, rfl, fun os k hk => by rw [baseAt?, hk], ?_⟩
    rw [deposit_zero, BitVec.or_zero]
    rfl
  · exact ⟨b, q.toBitVec.toNat, hb, hlt, hq, fun os k hk => by rw [baseAt?, hk], rfl⟩

theorem free_displaced {b : Base} (h : b ≠ .x) : (Pointer.plain b).code.Free (q6 ++ d5) ∧
    ((Pointer.plain b).code ||| storeBit).Free (q6 ++ d5) := by
  cases b with
  | x => exact (h rfl).elim
  | y | z => decide

theorem fits_displaced {code : Word} (hfree : code.Free (q6 ++ d5)) {n : Nat} (hn : n < 64)
    (r : Reg) : Draft.Fits { code, fields := [(q6, n), (d5, r.number)] } := by
  have hlt : r.number < 32 := r.index.isLt
  refine ⟨hfree, ?_, by simp⟩
  simp [q6, d5, hlt, hn]

theorem drafted_loadDisplaced (h : loadDisplaced.Suits slots)
    (takes : List.Forall₂ Slot.Takes slots os) : loadDisplaced.Drafted slots os := by
  obtain rfl := h
  obtain ⟨o, p, rfl, ho, hp⟩ := Slot.takes_two takes
  obtain ⟨r, rfl⟩ := Slot.takes_reg ho
  have hreg : Slot.content? .reg (.reg r) = some r.number := rfl
  obtain ⟨b, n, hb, hn, hcontent, hbase, hcode⟩ := displacedCode_eq hp
  refine ⟨_, ?_, fits_displaced (free_displaced hb).1 hn r, ?_⟩
  · simp [draft?, contentAt?, hbase [.reg r, p] 1 rfl, hcontent, hreg]
  · exact congrArg (fun w => Encoding.single (w ||| _)) hcode

theorem drafted_storeDisplaced (h : storeDisplaced.Suits slots)
    (takes : List.Forall₂ Slot.Takes slots os) : storeDisplaced.Drafted slots os := by
  obtain rfl := h
  obtain ⟨o, p, rfl, ho, hp⟩ := Slot.takes_two takes
  obtain ⟨r, rfl⟩ := Slot.takes_reg hp
  have hreg : Slot.content? .reg (.reg r) = some r.number := rfl
  obtain ⟨b, n, hb, hn, hcontent, hbase, hcode⟩ := displacedCode_eq ho
  refine ⟨_, ?_, fits_displaced (free_displaced hb).2 hn r, ?_⟩
  · simp [draft?, contentAt?, hbase [o, .reg r] 0 rfl, hcontent, hreg]
  · refine congrArg (fun w => Encoding.single (w ||| _)) ?_
    change o.displacedCode ||| storeBit = (Pointer.plain b).code ||| storeBit ||| q6.deposit n
    rw [hcode, Word.or_right_comm]

theorem drafted_loadProgram {bare plain increment : Word}
    (h : (loadProgram bare plain increment).Suits slots)
    (takes : List.Forall₂ Slot.Takes slots os) :
    (loadProgram bare plain increment).Drafted slots os := by
  rcases h with rfl | ⟨rfl, hplain, hincrement⟩
  · cases takes
    exact ⟨_, rfl, ⟨by simp [Word.Free, Draft.positions], by simp, by simp⟩, rfl⟩
  · obtain ⟨o, p, rfl, ho, hp⟩ := Slot.takes_two takes
    obtain ⟨r, rfl⟩ := Slot.takes_reg ho
    rcases Slot.takes_programPointer hp with rfl | rfl
    · exact ⟨_, rfl, fits_register hplain r none (by simp), rfl⟩
    · exact ⟨_, rfl, fits_register hincrement r none (by simp), rfl⟩

theorem drafted {layout : WordLayout} (h : layout.Suits slots)
    (takes : List.Forall₂ Slot.Takes slots os) : layout.Drafted slots os := by
  cases layout with
  | fields code ps => exact drafted_fields h takes
  | twice code => exact drafted_twice h takes
  | complement code => exact drafted_complement h takes
  | far code => exact drafted_far h takes
  | load code => exact drafted_load h takes
  | store code => exact drafted_store h takes
  | loadIndirect => exact drafted_loadIndirect h takes
  | storeIndirect => exact drafted_storeIndirect h takes
  | loadDisplaced => exact drafted_loadDisplaced h takes
  | storeDisplaced => exact drafted_storeDisplaced h takes
  | loadProgram bare plain increment => exact drafted_loadProgram h takes

end WordLayout

namespace Instruction

variable {i : Instruction}

theorem make_eq (m : Mnemonic) (os : List Operand) :
    make m os = (m.form os).map fun _ => { mnemonic := m, operands := os } := by
  unfold make
  cases m.form os <;> rfl

theorem encode_of_make_error {err : EncodingError} (h : make i.mnemonic i.operands = .error err) :
    i.encode = .error err := by
  rw [make_eq] at h
  unfold encode
  cases hform : i.mnemonic.form i.operands with
  | ok slots =>
    rw [hform] at h
    cases h
  | error found =>
    rw [hform] at h
    cases h
    rfl

/-- An instruction has an encoding exactly if its operands are accepted and none is left for
later. -/
theorem exists_encode_iff : (∃ e, i.encode = .ok e) ↔
    (∃ j, make i.mnemonic i.operands = .ok j) ∧ ∀ o ∈ i.operands, o.isSymbolic = false := by
  constructor
  · rintro ⟨e, h⟩
    unfold encode at h
    obtain ⟨slots, hform, h⟩ := bind_ok.mp h
    refine ⟨⟨_, by rw [make_eq, hform]; rfl⟩, ?_⟩
    split at h
    · cases h
    · next hfind => simpa using hfind
  · rintro ⟨⟨j, h⟩, hsym⟩
    have hfind : i.operands.find? Operand.isSymbolic = none := by simpa using hsym
    rw [make_eq] at h
    cases hform : i.mnemonic.form i.operands with
    | error err =>
      rw [hform] at h
      cases h
    | ok slots =>
      refine ⟨i.mnemonic.layout.assemble slots i.operands, ?_⟩
      unfold encode
      rw [hform, hfind]
      rfl

theorem exists_draft {e : Encoding} (h : i.encode = .ok e) :
    ∃ slots d, i.mnemonic.form i.operands = .ok slots ∧
      i.mnemonic.layout.draft? slots i.operands = some d ∧ d.Fits ∧ e = d.encoding := by
  have hbind := h
  unfold encode at hbind
  obtain ⟨slots, hform, -⟩ := bind_ok.mp hbind
  obtain ⟨hfind, -⟩ := Mnemonic.form_ok hform
  obtain ⟨found, hfound, takes, rfl⟩ := encodes h
  obtain rfl : found = slots := Option.some.inj (hfound.symm.trans hfind)
  obtain ⟨d, hd, hfits, henc⟩ :=
    WordLayout.drafted (WordLayout.suits_layout (Mnemonic.formOfLength_some hfind).1) takes
  exact ⟨found, d, hform, hd, hfits, henc⟩

end Instruction

theorem Encoding.exists_double_iff {e : Encoding} :
    (∃ w v, e = .double w v) ↔ e.bytes.length = 4 := by
  cases e with
  | single w => simp [bytes, Word.bytes]
  | double w v => simp [bytes, Word.bytes]

namespace Instruction

/-- Checking and encoding agree, whatever the operands. What is checked and has no symbols is
encoded, and what is refused is refused in the same way. No operand is missing on the way, no
subtraction goes below zero, every number fits its field, and the fields leave the opcode and each
other alone. -/
theorem encode_safe (i : Instruction) :
    ((∃ e, i.encode = .ok e) ↔
      (∃ j, make i.mnemonic i.operands = .ok j) ∧ ∀ o ∈ i.operands, o.isSymbolic = false) ∧
    (∀ err, make i.mnemonic i.operands = .error err → i.encode = .error err) ∧
    ∀ e, i.encode = .ok e →
      (∃ slots d, i.mnemonic.form i.operands = .ok slots ∧
        i.mnemonic.layout.draft? slots i.operands = some d ∧ e = d.encoding ∧
        d.code.Free d.positions ∧
        (∀ f ∈ d.fields, f.2 < 2 ^ f.1.length ∧ f.1.extract d.word = f.2) ∧
        (∀ k ∉ d.positions, d.word.getLsbD k = d.code.getLsbD k) ∧
        ∀ n ∈ d.second, n < 2 ^ 16) ∧
      ((∃ w v, e = .double w v) ↔ i.mnemonic.size = 4) := by
  refine ⟨exists_encode_iff, fun err => encode_of_make_error, fun e h => ⟨?_, ?_⟩⟩
  · obtain ⟨slots, d, hform, hd, hfits, henc⟩ := exists_draft h
    refine ⟨slots, d, hform, hd, henc, hfits.free, ?_, ?_, hfits.second⟩
    · intro f hf
      exact ⟨hfits.fields f hf, hfits.extract_word hf⟩
    · intro k hk
      exact Draft.getLsbD_word hk
  · rw [Encoding.exists_double_iff, length_encode h]
    rfl

/-- The last pair, counted from 24, and the largest number. -/
theorem encode_safe_last_pair :
    ∃ (e : Encoding) (d : Draft),
      Instruction.encode ⟨.sbiw, [.reg ⟨30⟩, .number 63], none⟩ = .ok e ∧ e = d.encoding ∧
      d.fields = [(.d2, 3), (.k6, 63)] ∧ d.code.Free d.positions := by
  obtain ⟨-, -, hencode⟩ := encode_safe ⟨.sbiw, [.reg ⟨30⟩, .number 63], none⟩
  obtain ⟨⟨slots, d, hform, hd, henc, hfree, -⟩, -⟩ := hencode _ rfl
  cases hform
  cases hd
  exact ⟨_, _, rfl, henc, rfl, hfree⟩

end Instruction

end Avr
