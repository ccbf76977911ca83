import Mathlib.Logic.Relation
import Avr.Proofs.JumpTargets
import Avr.Proofs.Numbers

namespace Avr

open Outcome

/-- An instruction without its comment. -/
structure Spelling where
  mnemonic : Mnemonic
  operands : List Operand
deriving DecidableEq

def Instruction.spelling (i : Instruction) : Spelling := ⟨i.mnemonic, i.operands⟩

/-- How a mnemonic spells an opcode of the mnemonic `t`. -/
inductive AliasOf
  /-- One register for both operands. -/
  | twice (t : Mnemonic)
  | same (t : Mnemonic)
  /-- The complement of the byte. -/
  | complement (t : Mnemonic)
  /-- The byte of ones. -/
  | ones (t : Mnemonic)
  /-- The status bit of this number. -/
  | flag (t : Mnemonic) (n : Fin 8)
  | branch (t : Mnemonic) (n : Fin 8)
  /-- Through `Y` and `Z` as with a displacement of zero. -/
  | load (t : Mnemonic)
  | store (t : Mnemonic)
deriving DecidableEq

namespace Mnemonic

def alias? : Mnemonic → Option AliasOf
  | tst => some (.twice and)
  | clr => some (.twice eor)
  | lsl => some (.twice add)
  | rol => some (.twice adc)
  | sbr => some (.same ori)
  | cbr => some (.complement andi)
  | ser => some (.ones ldi)
  | sec => some (.flag bset 0)
  | clc => some (.flag bclr 0)
  | sez => some (.flag bset 1)
  | clz => some (.flag bclr 1)
  | sen => some (.flag bset 2)
  | cln => some (.flag bclr 2)
  | sev => some (.flag bset 3)
  | clv => some (.flag bclr 3)
  | ses => some (.flag bset 4)
  | cls => some (.flag bclr 4)
  | seh => some (.flag bset 5)
  | clh => some (.flag bclr 5)
  | set => some (.flag bset 6)
  | clt => some (.flag bclr 6)
  | sei => some (.flag bset 7)
  | cli => some (.flag bclr 7)
  | brcs | brlo => some (.branch brbs 0)
  | brcc | brsh => some (.branch brbc 0)
  | breq => some (.branch brbs 1)
  | brne => some (.branch brbc 1)
  | brmi => some (.branch brbs 2)
  | brpl => some (.branch brbc 2)
  | brvs => some (.branch brbs 3)
  | brvc => some (.branch brbc 3)
  | brlt => some (.branch brbs 4)
  | brge => some (.branch brbc 4)
  | brhs => some (.branch brbs 5)
  | brhc => some (.branch brbc 5)
  | brts => some (.branch brbs 6)
  | brtc => some (.branch brbc 6)
  | brie => some (.branch brbs 7)
  | brid => some (.branch brbc 7)
  | ld => some (.load ldd)
  | st => some (.store std)
  | _ => none

end Mnemonic

namespace Operand

/-- The number of a status bit. -/
def flag (n : Fin 8) : Operand := .number (Int32.ofNat n.val)

/-- The byte of a number. -/
def byte (k : Int32) : Operand := .number (Int32.ofInt (k.toInt % 256))

end Operand

namespace AliasOf

/-- The mnemonic whose opcode it is. -/
def target : AliasOf → Mnemonic
  | twice t | same t | complement t | ones t | flag t _ | branch t _ | load t | store t => t

/-- The spelling that an alias stands for, if it is used with operands that it takes. -/
def expand? : AliasOf → List Operand → Option Spelling
  | twice t, [r] => some ⟨t, [r, r]⟩
  | same t, os => some ⟨t, os⟩
  | complement t, [d, .number k] => some ⟨t, [d, .byte (~~~k)]⟩
  | ones t, [d] => some ⟨t, [d, .number 255]⟩
  | flag t n, [] => some ⟨t, [.flag n]⟩
  | branch t n, [o] => some ⟨t, [.flag n, o]⟩
  | load t, [d, .pointer (.plain b)] => if b = .x then none else some ⟨t, [d, .displaced b 0]⟩
  | store t, [.pointer (.plain b), r] => if b = .x then none else some ⟨t, [.displaced b 0, r]⟩
  | _, _ => none

end AliasOf

namespace Slot

/-- Of two spellings of an operand the one that is written out: a pair, a byte from 0 to 255, an
index register with its displacement. -/
def plain : Slot → Operand → Operand
  | evenPair, .reg r | wordPair, .reg r => (Pair.ofLow? r).elim (.reg r) .pair
  | imm8, .number k => .byte k
  | displaced, .pointer (.plain b) => .displaced b 0
  | _, o => o

end Slot

namespace Spelling

/-- Names the opcode itself. -/
def unalias (x : Spelling) : Spelling :=
  ((x.mnemonic.alias?).bind fun a => a.expand? x.operands).getD x

def slots (x : Spelling) : List Slot := (x.mnemonic.formOfLength? x.operands.length).getD []

def plain (x : Spelling) : Spelling := ⟨x.mnemonic, x.slots.zipWith Slot.plain x.operands⟩

/-- The one spelling that stands for all others. -/
def canonical (x : Spelling) : Spelling := x.unalias.plain

end Spelling

def Instruction.canonical (i : Instruction) : Spelling := i.spelling.canonical

/-- Two spellings of one operand. -/
inductive Operand.Respells : Slot → Operand → Operand → Prop
  | refl (s : Slot) (o : Operand) : Respells s o o
  | evenPair (p : Pair) : Respells .evenPair (.reg p.low) (.pair p)
  | wordPair (p : Pair) : Respells .wordPair (.reg p.low) (.pair p)
  | byte {k l : Int32} (h : k.toInt % 256 = l.toInt % 256) :
      Respells .imm8 (.number k) (.number l)
  | undisplaced (b : Base) : Respells .displaced (.pointer (.plain b)) (.displaced b 0)

inductive Operand.RespellsAll : List Slot → List Operand → List Operand → Prop
  | nil : RespellsAll [] [] []
  | cons {s : Slot} {o p : Operand} {ss : List Slot} {os ps : List Operand}
      (head : Operand.Respells s o p) (tail : RespellsAll ss os ps) :
      RespellsAll (s :: ss) (o :: os) (p :: ps)

/-- Two spellings of one instruction: the aliases, and the operands with two spellings. -/
inductive Spelling.Respells : Spelling → Spelling → Prop
  | tst (r : Operand) : Respells ⟨.tst, [r]⟩ ⟨.and, [r, r]⟩
  | clr (r : Operand) : Respells ⟨.clr, [r]⟩ ⟨.eor, [r, r]⟩
  | lsl (r : Operand) : Respells ⟨.lsl, [r]⟩ ⟨.add, [r, r]⟩
  | rol (r : Operand) : Respells ⟨.rol, [r]⟩ ⟨.adc, [r, r]⟩
  | sbr (os : List Operand) : Respells ⟨.sbr, os⟩ ⟨.ori, os⟩
  | cbr (d : Operand) {k l : Int32} (h : l.toInt % 256 = (~~~k).toInt % 256) :
      Respells ⟨.cbr, [d, .number k]⟩ ⟨.andi, [d, .number l]⟩
  | ser (d : Operand) : Respells ⟨.ser, [d]⟩ ⟨.ldi, [d, .number 255]⟩
  | flag {m t : Mnemonic} {n : Fin 8} (h : m.alias? = some (.flag t n)) :
      Respells ⟨m, []⟩ ⟨t, [.flag n]⟩
  | branch {m t : Mnemonic} {n : Fin 8} (h : m.alias? = some (.branch t n)) (o : Operand) :
      Respells ⟨m, [o]⟩ ⟨t, [.flag n, o]⟩
  | load (d : Operand) {b : Base} (h : b ≠ .x) :
      Respells ⟨.ld, [d, .pointer (.plain b)]⟩ ⟨.ldd, [d, .displaced b 0]⟩
  | store (r : Operand) {b : Base} (h : b ≠ .x) :
      Respells ⟨.st, [.pointer (.plain b), r]⟩ ⟨.std, [.displaced b 0, r]⟩
  | operands {m : Mnemonic} {slots : List Slot} {os ps : List Operand}
      (form : m.formOfLength? os.length = some slots)
      (respells : Operand.RespellsAll slots os ps) : Respells ⟨m, os⟩ ⟨m, ps⟩

theorem toInt_byte (k : Int32) : (Int32.ofInt (k.toInt % 256)).toInt = k.toInt % 256 :=
  Int32.toInt_ofInt_of_le (by omega) (by omega)

theorem toNat_byte (k : Int32) :
    (Int32.ofInt (k.toInt % 256)).toBitVec.toNat = k.toBitVec.toNat % 256 := by
  have hb : (Int32.ofInt (k.toInt % 256)).toBitVec.toInt = k.toBitVec.toInt % 256 := toInt_byte k
  rw [BitVec.toInt_eq_toNat_cond, BitVec.toInt_eq_toNat_cond] at hb
  have := k.toBitVec.isLt
  have := (Int32.ofInt (k.toInt % 256)).toBitVec.isLt
  split at hb <;> split at hb <;> omega

theorem Operand.byte_congr {k l : Int32} (h : k.toInt % 256 = l.toInt % 256) :
    byte k = byte l := by
  rw [byte, byte, h]

namespace Operand.Respells

theorem plain_self (s : Slot) (o : Operand) : Operand.Respells s o (s.plain o) := by
  have hpair (r : Reg) (hs : s = .evenPair ∨ s = .wordPair) :
      Operand.Respells s (.reg r) ((Pair.ofLow? r).elim (.reg r) .pair) := by
    cases hp : Pair.ofLow? r with
    | none => exact .refl s _
    | some p =>
      rw [← Pair.ofLow_some hp]
      rcases hs with rfl | rfl
      · exact .evenPair p
      · exact .wordPair p
  fun_cases Slot.plain s o with
  | case1 r => exact hpair r (.inl rfl)
  | case2 r => exact hpair r (.inr rfl)
  | case3 k =>
    refine .byte ?_
    rw [toInt_byte]
    omega
  | case4 b => exact .undisplaced b
  | case5 => exact .refl s o

theorem plain_eq {s : Slot} {o p : Operand} (h : Operand.Respells s o p) :
    s.plain o = s.plain p := by
  have hlow (p : Pair) : Pair.ofLow? p.low = some p := by
    simp [Pair.ofLow?, Pair.low, Reg.number]
  cases h with
  | refl => rfl
  | evenPair p | wordPair p => simp [Slot.plain, hlow]
  | byte h => exact byte_congr h
  | undisplaced b => rfl

end Operand.Respells

namespace Slot

/-- Operands of the slot have one spelling. -/
def isRigid : Slot → Bool
  | evenPair | wordPair | imm8 | displaced => false
  | _ => true

end Slot

namespace Operand

theorem Respells.eq_of_isRigid {s : Slot} {o p : Operand} (h : Operand.Respells s o p)
    (hs : s.isRigid) : o = p := by
  cases h with
  | refl => rfl
  | _ => cases hs

namespace RespellsAll

variable {slots : List Slot} {os ps : List Operand}

theorem length_eq (h : RespellsAll slots os ps) : ps.length = os.length := by
  induction h with
  | nil => rfl
  | cons _ _ ih => simp [ih]

theorem zipWith_plain (h : RespellsAll slots os ps) :
    slots.zipWith Slot.plain os = slots.zipWith Slot.plain ps := by
  induction h with
  | nil => rfl
  | cons head _ ih => simp [head.plain_eq, ih]

theorem eq_of_isRigid (h : RespellsAll slots os ps) (hs : ∀ s ∈ slots, s.isRigid) : os = ps := by
  induction h with
  | nil => rfl
  | cons head _ ih =>
    rw [head.eq_of_isRigid (hs _ (by simp)), ih fun s hm => hs s (by simp [hm])]

theorem plain_self (h : slots.length = os.length) :
    RespellsAll slots os (slots.zipWith Slot.plain os) := by
  induction slots generalizing os with
  | nil =>
    obtain rfl := List.eq_nil_of_length_eq_zero h.symm
    exact .nil
  | cons s slots ih =>
    obtain ⟨o, os, rfl⟩ := List.exists_cons_of_length_eq_add_one h.symm
    exact .cons (.plain_self s o) (ih (by simpa using h))

end RespellsAll

end Operand

namespace Mnemonic

variable {m t : Mnemonic}

theorem alias_twice (h : m.alias? = some (.twice t)) :
    ∃ code, t.layout = .fields code [.d5, .r5] ∧ t.forms = [[.reg, .reg]] ∧
      m.layout = .twice code ∧ m.forms = [[.reg]] := by
  cases m <;> cases h <;> exact ⟨_, rfl, rfl, rfl, rfl⟩

theorem alias_same (h : m.alias? = some (.same t)) :
    m.layout = t.layout ∧ m.forms = t.forms := by
  cases m <;> cases h
  exact ⟨rfl, rfl⟩

theorem alias_complement (h : m.alias? = some (.complement t)) :
    ∃ code, t.layout = .fields code [.d4, .k8] ∧
      t.forms = [[.highReg, .imm8]] ∧ m.layout = .complement code ∧
      m.forms = [[.highReg, .imm8]] := by
  cases m <;> cases h
  exact ⟨_, rfl, rfl, rfl, rfl⟩

theorem alias_ones (h : m.alias? = some (.ones t)) :
    ∃ code, t.layout = .fields code [.d4, .k8] ∧
      t.forms = [[.highReg, .imm8]] ∧
      m.layout = .fields (code ||| Positions.deposit .k8 255) [.d4] ∧
      m.forms = [[.highReg]] := by
  cases m <;> cases h
  exact ⟨_, rfl, rfl, rfl, rfl⟩

theorem alias_flag {n : Fin 8} (h : m.alias? = some (.flag t n)) :
    ∃ code, t.layout = .fields code [.d3] ∧ t.forms = [[.statusBit]] ∧
      m.layout = .fields (code ||| Positions.deposit .d3 n) [] ∧ m.forms = [[]] := by
  cases m <;> cases h <;> exact ⟨_, rfl, rfl, rfl, rfl⟩

theorem alias_branch {n : Fin 8} (h : m.alias? = some (.branch t n)) :
    ∃ code, t.layout = .fields code [.b3, .k7] ∧
      t.forms = [[.statusBit, .rel7]] ∧
      m.layout = .fields (code ||| Positions.deposit .b3 n) [.k7] ∧ m.forms = [[.rel7]] := by
  cases m <;> cases h <;> exact ⟨_, rfl, rfl, rfl, rfl⟩

theorem alias_load (h : m.alias? = some (.load t)) : m = .ld ∧ t = .ldd := by
  cases m <;> cases h
  exact ⟨rfl, rfl⟩

theorem alias_store (h : m.alias? = some (.store t)) : m = .st ∧ t = .std := by
  cases m <;> cases h
  exact ⟨rfl, rfl⟩

/-- What an alias stands for is no alias. -/
theorem alias_target {a : AliasOf} (h : m.alias? = some a) : a.target.alias? = none := by
  cases m <;> cases h <;> rfl

/-- Of the aliases only two take a byte. -/
theorem isRigid_of_alias {a : AliasOf} {slots : List Slot} (h : m.alias? = some a)
    (hs : slots ∈ m.forms) : (∀ s ∈ slots, s.isRigid) ∨ m = .sbr ∨ m = .cbr := by
  revert slots
  cases m <;> cases h <;> decide

end Mnemonic

theorem AliasOf.mnemonic_expand {a : AliasOf} {os : List Operand} {y : Spelling}
    (h : a.expand? os = some y) : y.mnemonic = a.target := by
  revert h
  fun_cases expand? a os <;> rintro ⟨⟩ <;> rfl

namespace Spelling

/-- No mnemonic stands for another one with these operands. -/
def IsOpcode (x : Spelling) : Prop := (x.mnemonic.alias?.bind fun a => a.expand? x.operands) = none

theorem unalias_cases (x : Spelling) :
    (x.IsOpcode ∧ x.unalias = x) ∨
      ∃ a, x.mnemonic.alias? = some a ∧ a.expand? x.operands = some x.unalias := by
  cases hy : x.mnemonic.alias?.bind fun a => a.expand? x.operands with
  | none => exact .inl ⟨hy, by rw [unalias, hy]; rfl⟩
  | some y =>
    obtain ⟨a, ha, he⟩ := Option.bind_eq_some_iff.mp hy
    have hu : x.unalias = y := by rw [unalias, hy]; rfl
    exact .inr ⟨a, ha, hu ▸ he⟩

theorem isOpcode_of_none {x : Spelling} (h : x.mnemonic.alias? = none) : x.IsOpcode := by
  simp [IsOpcode, h]

theorem isOpcode_unalias (x : Spelling) : x.unalias.IsOpcode := by
  rcases unalias_cases x with ⟨hx, hu⟩ | ⟨a, ha, he⟩
  · rw [hu]
    exact hx
  · refine isOpcode_of_none ?_
    rw [AliasOf.mnemonic_expand he]
    exact Mnemonic.alias_target ha

theorem unalias_of_none {x : Spelling} (h : x.mnemonic.alias? = none) : x.unalias = x := by
  simp [unalias, h]

theorem plain_congr {m : Mnemonic} {slots : List Slot} {os ps : List Operand}
    (form : m.formOfLength? os.length = some slots) (h : Operand.RespellsAll slots os ps) :
    plain ⟨m, os⟩ = plain ⟨m, ps⟩ := by
  simp [plain, Spelling.slots, h.length_eq, form, h.zipWith_plain]

theorem toInt_not_mod {k l : Int32} (h : k.toInt % 256 = l.toInt % 256) :
    (~~~k).toInt % 256 = (~~~l).toInt % 256 := by
  have hnot (k : Int32) : (~~~k).toInt = -k.toInt - 1 := by
    have := k.le_toInt
    have := k.toInt_lt
    rw [Int32.toInt_not]
    exact Int.bmod_eq_of_le (by omega) (by omega)
  rw [hnot, hnot]
  omega

/-- Operands keep the canonical spelling under an alias, too. -/
theorem canonical_congr {m : Mnemonic} {slots : List Slot} {os ps : List Operand}
    (form : m.formOfLength? os.length = some slots) (h : Operand.RespellsAll slots os ps) :
    canonical ⟨m, os⟩ = canonical ⟨m, ps⟩ := by
  cases ha : m.alias? with
  | none =>
    unfold canonical
    rw [unalias_of_none ha, unalias_of_none ha]
    exact plain_congr form h
  | some a =>
    rcases Mnemonic.isRigid_of_alias ha (Mnemonic.formOfLength_some form).1 with hr | rfl | rfl
    · rw [h.eq_of_isRigid hr]
    · exact plain_congr (m := .ori) form h
    · obtain rfl : slots = [.highReg, .imm8] := by
        simpa [Mnemonic.forms] using (Mnemonic.formOfLength_some form).1
      cases h with
      | cons head tail =>
        cases tail with
        | cons byte rest =>
          cases rest
          obtain rfl := head.eq_of_isRigid rfl
          cases byte with
          | refl => rfl
          | byte hk =>
            simp [canonical, unalias, Mnemonic.alias?, AliasOf.expand?,
              Operand.byte_congr (toInt_not_mod hk)]

theorem Respells.canonical_eq {x y : Spelling} (h : Respells x y) : x.canonical = y.canonical := by
  cases h with
  | tst | clr | lsl | rol | sbr | ser => rfl
  | @cbr d k l h =>
    have hl : Operand.Respells .imm8 (.byte (~~~k)) (.number l) :=
      .byte (by rw [toInt_byte, h, Int.emod_emod])
    exact plain_congr (m := .andi) rfl (.cons (.refl .highReg d) (.cons hl .nil))
  | flag h =>
    have ht := Mnemonic.alias_target h
    simp_all [canonical, unalias, AliasOf.expand?, AliasOf.target]
  | branch h o =>
    have ht := Mnemonic.alias_target h
    simp_all [canonical, unalias, AliasOf.expand?, AliasOf.target]
  | load d h => simp [canonical, unalias, Mnemonic.alias?, AliasOf.expand?, h]
  | store r h => simp [canonical, unalias, Mnemonic.alias?, AliasOf.expand?, h]
  | operands form h => exact canonical_congr form h

theorem Respells.of_expand {m : Mnemonic} {a : AliasOf} {os : List Operand} {y : Spelling}
    (ha : m.alias? = some a) (h : a.expand? os = some y) : Respells ⟨m, os⟩ y := by
  fun_cases AliasOf.expand? a os with
  | case1 t r =>
    cases h
    cases m <;> cases ha
    · exact .tst r
    · exact .clr r
    · exact .lsl r
    · exact .rol r
  | case2 t =>
    cases h
    cases m <;> cases ha
    exact .sbr os
  | case3 t d k =>
    cases h
    cases m <;> cases ha
    exact .cbr d (by rw [toInt_byte]; omega)
  | case4 t d =>
    cases h
    cases m <;> cases ha
    exact .ser d
  | case5 t n =>
    cases h
    exact .flag ha
  | case6 t n o =>
    cases h
    exact .branch ha o
  | case7 t d | case9 t d => simp [AliasOf.expand?] at h
  | case8 t d b hb =>
    obtain ⟨rfl, rfl⟩ := Mnemonic.alias_load ha
    simp only [AliasOf.expand?, hb, if_false, Option.some.injEq] at h
    subst h
    exact .load d hb
  | case10 t b r hb =>
    obtain ⟨rfl, rfl⟩ := Mnemonic.alias_store ha
    simp only [AliasOf.expand?, hb, if_false, Option.some.injEq] at h
    subst h
    exact .store r hb
  | case11 => simp_all [AliasOf.expand?]

end Spelling

/-- The slot accepts the operand, which leaves nothing for later. -/
def Slot.Takes (s : Slot) (o : Operand) : Prop := o.isSymbolic = false ∧ ∃ m, s.check m o = .ok ()

/-- The operands fill a form of the mnemonic, and these are the words. -/
def Spelling.Encodes (x : Spelling) (e : Encoding) : Prop :=
  ∃ slots, x.mnemonic.formOfLength? x.operands.length = some slots ∧
    List.Forall₂ Slot.Takes slots x.operands ∧ x.mnemonic.layout.assemble slots x.operands = e

theorem Slot.takes_of_checkAll {m : Mnemonic} {slots : List Slot} {os : List Operand}
    (hlen : slots.length = os.length) (hc : checkAll m slots os = .ok ())
    (hs : ∀ o ∈ os, o.isSymbolic = false) : List.Forall₂ Slot.Takes slots os := by
  refine List.forall₂_iff_zip.mpr ⟨hlen, fun {s o} hm => ⟨hs o (List.of_mem_zip hm).2, m, ?_⟩⟩
  exact check_of_checkAll hc _ hm

theorem Instruction.encodes {i : Instruction} {e : Encoding} (h : i.encode = .ok e) :
    i.spelling.Encodes e := by
  unfold encode at h
  obtain ⟨slots, hform, h⟩ := bind_ok.mp h
  obtain ⟨hfind, hcheck⟩ := Mnemonic.form_ok hform
  split at h
  · cases h
  · next hsym =>
    cases h
    have hsym : ∀ o ∈ i.operands, o.isSymbolic = false := by simpa using hsym
    exact ⟨slots, hfind, Slot.takes_of_checkAll (Mnemonic.formOfLength_some hfind).2 hcheck hsym,
      rfl⟩

namespace Slot

theorem takes_reg {o : Operand} (h : reg.Takes o) : ∃ r, o = .reg r := by
  obtain ⟨-, m, h⟩ := h
  cases o with
  | reg r => exact ⟨r, rfl⟩
  | _ => cases h

theorem takes_highReg {o : Operand} (h : highReg.Takes o) :
    ∃ r : Reg, o = .reg r ∧ 16 ≤ r.number := by
  obtain ⟨-, m, h⟩ := h
  cases o with
  | reg r =>
    refine ⟨r, rfl, ?_⟩
    by_contra hr
    simp [check, Reg.isHigh, hr] at h
  | _ => cases h

theorem takes_number {s : Slot} {o : Operand} {range : Int32 × Int32} (hs : s.range? = some range)
    (h : s.Takes o) : ∃ k, o = .number k ∧ range.1.toInt ≤ k.toInt ∧ k.toInt ≤ range.2.toInt := by
  obtain ⟨hsym, m, h⟩ := h
  have hc : checkNumber m s range.1 range.2 o = .ok () := by
    cases s <;> cases hs <;> exact h
  cases o with
  | number k =>
    simp only [checkNumber] at hc
    split at hc
    · next hk => exact ⟨k, rfl, Int32.le_iff_toInt_le.mp hk.1, Int32.le_iff_toInt_le.mp hk.2⟩
    · cases hc
  | reg | pair | pointer | displaced => simp [checkNumber, Operand.isSymbolic] at hc
  | _ => cases hsym

theorem takes_byte (k : Int32) : imm8.Takes (.byte k) := by
  refine ⟨rfl, .nop, if_pos ⟨?_, ?_⟩⟩ <;> rw [Int32.le_iff_toInt_le, toInt_byte]
  · exact Int.le_trans (by decide) (Int.emod_nonneg _ (by decide))
  · exact Int.le_of_lt_add_one (Int.emod_lt_of_pos _ (by decide))

theorem takes_flag (n : Fin 8) : statusBit.Takes (.flag n) := by
  refine ⟨rfl, .nop, ?_⟩
  revert n
  decide

theorem takes_displaced {b : Base} (h : b ≠ .x) : displaced.Takes (.displaced b 0) := by
  refine ⟨rfl, .nop, ?_⟩
  cases b with
  | x => exact (h rfl).elim
  | y | z => rfl

end Slot

namespace Mnemonic

variable {m : Mnemonic} {slots : List Slot}

theorem formOfLength_single (h : m.forms = [slots]) :
    m.formOfLength? slots.length = some slots := by
  simp [formOfLength?, h]

theorem eq_of_formOfLength {found : List Slot} {n : Nat} (h : m.forms = [slots])
    (hn : m.formOfLength? n = some found) : found = slots := by
  simpa [h] using (formOfLength_some hn).1

end Mnemonic

namespace Positions

theorem deposit_zero (ps : Positions) : ps.deposit 0 = 0#16 := by
  induction ps with
  | nil => rfl
  | cons p ps ih => simpa [deposit] using ih

end Positions

theorem Operand.displacedCode_zero (b : Base) :
    (displaced b 0).displacedCode = (pointer (.plain b)).pointerCode := by
  change (Pointer.plain b).code ||| Positions.deposit .q6 0 = (Pointer.plain b).code
  rw [Positions.deposit_zero, BitVec.or_zero]

namespace Spelling

open Positions

theorem deposit_complement (k : Int32) :
    k8.deposit (Operand.bits .imm8 (.byte (~~~k))) =
      k8.deposit (255 - Operand.bits .imm8 (.number k) % 256) := by
  have hk := k.toBitVec.isLt
  have hnot : (Int32.ofInt ((~~~k).toInt % 256)).toBitVec.toNat = 255 - k.toBitVec.toNat % 256 := by
    rw [toNat_byte, Int32.toBitVec_not, BitVec.toNat_not]
    omega
  exact congrArg k8.deposit hnot

theorem deposit_flag (ps : Positions) (n : Fin 8) :
    ps.deposit (Operand.bits .statusBit (.flag n)) = ps.deposit n := by
  refine congrArg ps.deposit ?_
  revert n
  decide

theorem Encodes.unalias {x : Spelling} {e : Encoding} (h : x.Encodes e) : x.unalias.Encodes e := by
  rcases unalias_cases x with ⟨-, hu⟩ | ⟨a, ha, hy⟩
  · rw [hu]
    exact h
  obtain ⟨m, os⟩ := x
  obtain ⟨slots, form, takes, rfl⟩ := h
  generalize Spelling.unalias ⟨m, os⟩ = y at hy ⊢
  change m.formOfLength? os.length = some slots at form
  change List.Forall₂ Slot.Takes slots os at takes
  change m.alias? = some a at ha
  change a.expand? os = some y at hy
  change y.Encodes (m.layout.assemble slots os)
  fun_cases AliasOf.expand? a os with
  | case1 t r =>
    cases hy
    obtain ⟨code, ht, hforms, hm, hform⟩ := Mnemonic.alias_twice ha
    obtain rfl := Mnemonic.eq_of_formOfLength hform form
    obtain ⟨hr, -⟩ := List.forall₂_cons.mp takes
    obtain ⟨r, rfl⟩ := Slot.takes_reg hr
    refine ⟨[.reg, .reg], Mnemonic.formOfLength_single hforms, .cons hr (.cons hr .nil), ?_⟩
    rw [ht, hm]
    rfl
  | case2 t =>
    cases hy
    obtain ⟨hlayout, hforms⟩ := Mnemonic.alias_same ha
    refine ⟨slots, ?_, takes, by rw [hlayout]⟩
    simpa [Mnemonic.formOfLength?, hforms] using form
  | case3 t d k =>
    cases hy
    obtain ⟨code, ht, hforms, hm, hform⟩ := Mnemonic.alias_complement ha
    obtain rfl := Mnemonic.eq_of_formOfLength hform form
    obtain ⟨hd, -⟩ := List.forall₂_cons.mp takes
    obtain ⟨r, rfl, -⟩ := Slot.takes_highReg hd
    refine ⟨[.highReg, .imm8], Mnemonic.formOfLength_single hforms, .cons hd (.cons ?_ .nil), ?_⟩
    · exact Slot.takes_byte _
    · rw [ht, hm]
      exact congrArg (fun w => Encoding.single (code ||| _ ||| w)) (deposit_complement k)
  | case4 t d =>
    cases hy
    obtain ⟨code, ht, hforms, hm, hform⟩ := Mnemonic.alias_ones ha
    obtain rfl := Mnemonic.eq_of_formOfLength hform form
    obtain ⟨hd, -⟩ := List.forall₂_cons.mp takes
    refine ⟨[.highReg, .imm8], Mnemonic.formOfLength_single hforms, .cons hd (.cons ?_ .nil), ?_⟩
    · exact ⟨rfl, .nop, rfl⟩
    · rw [ht, hm]
      change Encoding.single (code ||| _ ||| k8.deposit 255) =
        .single (code ||| k8.deposit 255 ||| _)
      congr 1
      ac_rfl
  | case5 t n =>
    cases hy
    obtain ⟨code, ht, hforms, hm, hform⟩ := Mnemonic.alias_flag ha
    obtain rfl := Mnemonic.eq_of_formOfLength hform form
    refine ⟨[.statusBit], Mnemonic.formOfLength_single hforms, .cons (Slot.takes_flag n) .nil, ?_⟩
    rw [ht, hm]
    exact congrArg (fun w => Encoding.single (code ||| w)) (deposit_flag d3 n)
  | case6 t n o =>
    cases hy
    obtain ⟨code, ht, hforms, hm, hform⟩ := Mnemonic.alias_branch ha
    obtain rfl := Mnemonic.eq_of_formOfLength hform form
    refine ⟨[.statusBit, .rel7], Mnemonic.formOfLength_single hforms,
      .cons (Slot.takes_flag n) takes, ?_⟩
    rw [ht, hm]
    exact congrArg (fun w => Encoding.single (code ||| w ||| _)) (deposit_flag b3 n)
  | case7 t d | case9 t d => simp [AliasOf.expand?] at hy
  | case8 t d b hb =>
    obtain ⟨rfl, rfl⟩ := Mnemonic.alias_load ha
    simp only [AliasOf.expand?, hb, if_false, Option.some.injEq] at hy
    subst hy
    obtain rfl := Mnemonic.eq_of_formOfLength rfl form
    obtain ⟨hd, -⟩ := List.forall₂_cons.mp takes
    refine ⟨[.reg, .displaced], rfl, .cons hd (.cons (Slot.takes_displaced hb) .nil), ?_⟩
    exact congrArg (fun w => Encoding.single (w ||| _)) (Operand.displacedCode_zero b)
  | case10 t b r hb =>
    obtain ⟨rfl, rfl⟩ := Mnemonic.alias_store ha
    simp only [AliasOf.expand?, hb, if_false, Option.some.injEq] at hy
    subst hy
    obtain rfl := Mnemonic.eq_of_formOfLength rfl form
    obtain ⟨-, hr⟩ := List.forall₂_cons.mp takes
    refine ⟨[.displaced, .reg], rfl, .cons (Slot.takes_displaced hb) hr, ?_⟩
    exact congrArg (fun w => Encoding.single (w ||| _ ||| _)) (Operand.displacedCode_zero b)
  | case11 => simp_all [AliasOf.expand?]

theorem Encodes.respells_canonical {x : Spelling} {e : Encoding} (h : x.Encodes e) :
    Relation.EqvGen Respells x x.canonical := by
  obtain ⟨slots, form, -, -⟩ := h.unalias
  have hplain : Respells x.unalias x.canonical := by
    have hslots : x.unalias.slots = slots := by simp [Spelling.slots, form]
    simp only [canonical, plain, hslots]
    exact .operands form (.plain_self (Mnemonic.formOfLength_some form).2)
  rcases unalias_cases x with ⟨-, hx⟩ | ⟨a, ha, he⟩
  · rw [hx] at hplain
    exact .rel _ _ hplain
  · exact .trans _ _ _ (.rel _ _ (.of_expand ha he)) (.rel _ _ hplain)

/-- Two accepted spellings have the same canonical one only if respelling leads from one to the
other. -/
theorem canonical_eq_iff {x y : Spelling} {e f : Encoding} (hx : x.Encodes e) (hy : y.Encodes f) :
    x.canonical = y.canonical ↔ Relation.EqvGen Respells x y := by
  constructor
  · intro h
    exact .trans _ _ _ hx.respells_canonical (h ▸ .symm _ _ hy.respells_canonical)
  · intro h
    clear hx hy
    induction h with
    | rel _ _ h => exact h.canonical_eq
    | refl => rfl
    | symm _ _ _ ih => exact ih.symm
    | trans _ _ _ _ _ ih ih' => exact ih.trans ih'

end Spelling

end Avr
