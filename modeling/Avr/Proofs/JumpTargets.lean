import Avr.Proofs.Alignment
import Avr.Proofs.Fields

namespace Avr

open Outcome

namespace Slot

/-- Where the field of a displacement begins in its word. -/
def start : Slot → Nat
  | rel7 => 3
  | _ => 0

def width : Slot → Nat
  | rel7 => 7
  | rel12 => 12
  | _ => 0

theorem field_fits (slot : Slot) : slot.start + slot.width ≤ 16 := by
  cases slot <;> decide

end Slot

/-- The shapes of an instruction with a target, each with room for the target in its opcode. -/
inductive JumpForm (m : Mnemonic) (slots : List Slot) (slot : Slot) : Prop
  | relative (code : Word) (ps : Positions) (layout : m.layout = .fields code [ps])
      (slots : slots = [slot]) (relative : slot.isRelative)
      (field : ps = List.range' slot.start slot.width)
      (free : code.extractLsb' slot.start slot.width = 0)
  | status (code : Word) (layout : m.layout = .fields code [.b3, .k7])
      (slots : slots = [.statusBit, .rel7]) (slot : slot = .rel7)
      (free : code.extractLsb' 3 7 = 0)
  | far (code : Word) (layout : m.layout = .far code) (slots : slots = [.abs22])
      (slot : slot = .abs22) (free : code.extractLsb' 4 5 = 0) (free' : code.extractLsb' 0 1 = 0)

theorem Mnemonic.jumpForm (m : Mnemonic) :
    ∀ slots ∈ m.forms, ∀ slot ∈ slots, slot.isJump → JumpForm m slots slot := by
  cases m <;> intro slots hf slot hs hj
  case rjmp | rcall =>
    obtain ⟨rfl, rfl⟩ : slots = [slot] ∧ slot = .rel12 := by
      revert slots slot
      decide
    exact .relative _ _ rfl rfl rfl rfl rfl
  case jmp | call =>
    obtain ⟨rfl, rfl⟩ : slots = [slot] ∧ slot = .abs22 := by
      revert slots slot
      decide
    exact .far _ rfl rfl rfl rfl rfl
  case brbs | brbc =>
    obtain ⟨rfl, rfl⟩ : slots = [.statusBit, slot] ∧ slot = .rel7 := by
      revert slots slot
      decide
    exact .status _ rfl rfl rfl rfl
  case breq | brne | brcs | brcc | brsh | brlo | brmi | brpl | brge | brlt | brhs | brhc | brts
      | brtc | brvs | brvc | brie | brid =>
    obtain ⟨rfl, rfl⟩ : slots = [slot] ∧ slot = .rel7 := by
      revert slots slot
      decide
    exact .relative _ _ rfl rfl rfl rfl rfl
  all_goals
    exfalso
    revert slots slot
    decide

/-- Cutting a number to a field loses nothing when the field has room for its sign. -/
theorem toInt_field (len : Nat) {k : Int32} (hlen : len < 32) (hmin : -2 ^ len ≤ k.toInt)
    (hmax : k.toInt < 2 ^ len) :
    (BitVec.ofNat (len + 1) k.toBitVec.toNat).toInt = k.toInt := by
  have hdvd : 2 ^ (len + 1) ∣ 2 ^ 32 := Nat.pow_dvd_pow 2 hlen
  have hk : k.toInt = (k.toBitVec.toNat : Int).bmod (2 ^ 32) := BitVec.toInt_eq_toNat_bmod _
  rw [BitVec.toInt_ofNat', ← Int.bmod_bmod_of_dvd hdvd, ← hk]
  apply Int.bmod_eq_of_le
  · push_cast
    rw [Int.pow_succ]
    omega
  · push_cast
    rw [Int.pow_succ]
    omega

theorem toNat_far {k : Int32} (hmin : 0 ≤ k.toInt) (hmax : k.toInt < 2 ^ 22) :
    ((BitVec.ofNat 6 (k.toBitVec.toNat / 65536) ++ BitVec.ofNat 16 k.toBitVec.toNat).toNat : Int) =
      k.toInt := by
  have hk : k.toInt = (k.toBitVec.toNat : Int).bmod (2 ^ 32) := BitVec.toInt_eq_toNat_bmod _
  have hlt := k.toBitVec.isLt
  generalize k.toBitVec.toNat = n at *
  have hn : k.toInt = n := by
    rw [Int.bmod_def] at hk
    split at hk <;> omega
  rw [BitVec.toNat_append, ← Nat.shiftLeft_add_eq_or_of_lt (BitVec.isLt _), Nat.shiftLeft_eq]
  simp only [BitVec.toNat_ofNat]
  omega

namespace Slot

/-- Where a number in the slot leads to from `here`. -/
def aim (slot : Slot) (here : Nat) (k : Int32) : Int :=
  if slot.isRelative then here + 2 + 2 * k.toInt else 2 * k.toInt

theorem check_number {m : Mnemonic} {slot : Slot} {k : Int32} (hj : slot.isJump)
    (h : slot.check m (.number k) = .ok ()) :
    ∃ min max, slot.range? = some (min, max) ∧ min.toInt ≤ k.toInt ∧ k.toInt ≤ max.toInt := by
  have hrange {min max : Int32} (h : checkNumber m slot min max (.number k) = .ok ()) :
      min.toInt ≤ k.toInt ∧ k.toInt ≤ max.toInt := by
    simp only [checkNumber] at h
    split at h
    · next hk => exact ⟨Int32.le_iff_toInt_le.mp hk.1, Int32.le_iff_toInt_le.mp hk.2⟩
    · cases h
  cases slot with
  | rel7 | rel12 | abs22 => exact ⟨_, _, rfl, hrange h⟩
  | _ => cases hj

theorem check_of_checkAll {m : Mnemonic} {slots : List Slot} {operands : List Operand}
    (h : checkAll m slots operands = .ok ()) :
    ∀ x ∈ slots.zip operands, x.1.check m x.2 = .ok () := by
  fun_induction checkAll m slots operands with
  | case1 s ss o os ih =>
    obtain ⟨⟨⟩, hs, h⟩ := Outcome.bind_ok.mp h
    intro x hx
    rcases List.mem_cons.mp hx with rfl | hx
    · exact hs
    · exact ih h x hx
  | case2 slots operands hne =>
    intro x hx
    cases slots with
    | nil => cases hx
    | cons s ss =>
      cases operands with
      | nil => cases hx
      | cons o os => exact (hne s ss o os rfl rfl).elim

end Slot

namespace Slot

theorem target_relative {m : Mnemonic} {slot : Slot} {k : Int32} {w : Word} (here : Nat)
    (hrel : slot.isRelative) (hc : slot.check m (.number k) = .ok ())
    (hw : w.extractLsb' slot.start slot.width = BitVec.ofNat slot.width k.toBitVec.toNat) :
    slot.target? here [w] = some (slot.aim here k) := by
  cases slot with
  | rel7 =>
    obtain ⟨_, _, ⟨⟩, hmin, hmax⟩ := check_number rfl hc
    change some ((here : Int) + 2 + 2 * (w.extractLsb' 3 7).toInt) = some (here + 2 + 2 * k.toInt)
    have hf := toInt_field 6 (by omega) hmin (Int.lt_add_one_of_le hmax)
    rw [← hf]
    exact congrArg (fun f => some ((here : Int) + 2 + 2 * f.toInt)) hw
  | rel12 =>
    obtain ⟨_, _, ⟨⟩, hmin, hmax⟩ := check_number rfl hc
    change some ((here : Int) + 2 + 2 * (w.extractLsb' 0 12).toInt) = some (here + 2 + 2 * k.toInt)
    have hf := toInt_field 11 (by omega) hmin (Int.lt_add_one_of_le hmax)
    rw [← hf]
    exact congrArg (fun f => some ((here : Int) + 2 + 2 * f.toInt)) hw
  | _ => cases hrel

theorem target_far {m : Mnemonic} {k : Int32} {w : Word} (here : Nat)
    (hc : abs22.check m (.number k) = .ok ())
    (hw : w.extractLsb' 4 5 ++ w.extractLsb' 0 1 = BitVec.ofNat 6 (k.toBitVec.toNat / 65536)) :
    abs22.target? here [w, BitVec.ofNat 16 k.toBitVec.toNat] = some (abs22.aim here k) := by
  obtain ⟨_, _, ⟨⟩, hmin, hmax⟩ := check_number rfl hc
  have hf := toNat_far hmin (Int.lt_add_one_of_le hmax)
  simp only [target?, hw, hf]
  rfl

end Slot

/-- What is read back from the words is where the number leads to. -/
theorem JumpForm.target_assemble {m : Mnemonic} {slots : List Slot} {slot : Slot}
    (h : JumpForm m slots slot) {operands : List Operand} {k : Int32} (here : Nat)
    (hk : (slot, .number k) ∈ slots.zip operands) (hc : slot.check m (.number k) = .ok ()) :
    slot.target? here (m.layout.assemble slots operands).words = some (slot.aim here k) := by
  cases h with
  | relative code ps hl hs hrel hps hfree =>
    subst hs
    obtain ⟨o, os, rfl⟩ : ∃ o os, operands = o :: os :=
      List.exists_cons_of_ne_nil (by rintro rfl; cases hk)
    obtain rfl : Operand.number k = o := by simpa using hk
    rw [hl]
    refine Slot.target_relative here hrel hc ?_
    exact Positions.extract_field hps (slot.field_fits) hfree _
  | status code hl hs hslot hfree =>
    subst hs hslot
    obtain ⟨o, p, os, rfl⟩ : ∃ o p os, operands = o :: p :: os := by
      match operands, hk with
      | o :: p :: os, _ => exact ⟨o, p, os, rfl⟩
    obtain rfl : Operand.number k = p := by simpa using hk
    rw [hl]
    refine Slot.target_relative here rfl hc ?_
    refine Positions.extract_field rfl (by decide) ?_ _
    change (code ||| Positions.deposit .b3 (o.bits .statusBit)).extractLsb' 3 7 = 0
    rw [BitVec.extractLsb'_or, hfree, Positions.extract_deposit_of_disjoint (by decide)]
    rfl
  | far code hl hs hslot hfree hfree' =>
    subst hs hslot
    obtain ⟨o, os, rfl⟩ : ∃ o os, operands = o :: os :=
      List.exists_cons_of_ne_nil (by rintro rfl; cases hk)
    obtain rfl : Operand.number k = o := by simpa using hk
    rw [hl]
    refine Slot.target_far here hc ?_
    rw [← Positions.extract_deposit_far]
    simp [BitVec.extractLsb'_or, hfree, hfree', Operand.bits]

namespace Layout

/-- A word has room for the distance between two places that are not too far apart. -/
theorem toInt_reference {slot : Slot} {here target : Nat} (hslot : slot.isRelative)
    (hparity : here % 2 = target % 2) (hback : here < target + 0x80000000)
    (hforth : target < here + 0x80000000) :
    (reference here target slot).toInt = ((target : Int) - here) / 2 - 1 := by
  have hd : (Int32.ofNat target - Int32.ofNat here).toInt = (target : Int) - here := by
    rw [Int32.toInt_sub, Int32.toInt_ofNat', Int32.toInt_ofNat', ← Int.sub_bmod]
    change ((target : Int) - here).bmod (2 ^ 32) = _
    exact Int.bmod_eq_of_le (by omega) (by omega)
  have hq : ((Int32.ofNat target - Int32.ofNat here) / 2).toInt = ((target : Int) - here) / 2 := by
    rw [Int32.toInt_div, hd]
    change (((target : Int) - here).tdiv 2).bmod (2 ^ 32) = _
    rw [Int.tdiv_eq_ediv_of_dvd (by omega)]
    exact Int.bmod_eq_of_le (by omega) (by omega)
  rw [reference, if_pos hslot, Int32.toInt_sub, hq]
  exact Int.bmod_eq_of_le (by simp; omega) (by simp; omega)

/-- The number of a reference leads to its target. -/
theorem aim_reference {slot : Slot} {here target : Nat} (hh : here % 2 = 0)
    (ht : target % 2 = 0) (hlh : here < 2 ^ 31) (hlt : target < 2 ^ 31) :
    slot.aim here (reference here target slot) = target := by
  unfold Slot.aim
  split
  · next hslot =>
    rw [toInt_reference hslot (hh.trans ht.symm) (by omega) (by omega)]
    omega
  · next hslot =>
    rw [reference, if_neg hslot, Int32.toInt_ofNat_of_lt (by omega)]
    omega

theorem mem_resolveOperands {l : Layout} {linker : Bool} {here : Nat} {slots : List Slot}
    {operands resolved : List Operand}
    (h : l.resolveOperands linker here slots operands = .ok resolved)
    (hlen : slots.length = operands.length) :
    resolved.length = operands.length ∧
      ∀ slot o, (slot, o) ∈ slots.zip operands →
        ∃ p, l.resolveOperand linker here slot o = .ok p ∧ (slot, p) ∈ slots.zip resolved := by
  induction slots generalizing operands resolved with
  | nil =>
    obtain rfl := List.eq_nil_of_length_eq_zero hlen.symm
    cases h
    simp
  | cons s ss ih =>
    obtain ⟨o, os, rfl⟩ := List.exists_cons_of_length_eq_add_one hlen.symm
    unfold resolveOperands at h
    obtain ⟨p, hp, h⟩ := bind_ok.mp h
    obtain ⟨ps, hps, h⟩ := bind_ok.mp h
    cases h
    obtain ⟨hl, hm⟩ := ih hps (by simpa using hlen)
    refine ⟨by simp [hl], ?_⟩
    intro slot q hq
    rcases List.mem_cons.mp hq with he | hq
    · cases he
      exact ⟨p, hp, List.mem_cons_self⟩
    · obtain ⟨p', hp', hm'⟩ := hm slot q hq
      exact ⟨p', hp', List.mem_cons_of_mem _ hm'⟩
end Layout

theorem Mnemonic.form_ok {m : Mnemonic} {operands : List Operand} {slots : List Slot}
    (h : m.form operands = .ok slots) :
    m.formOfLength? operands.length = some slots ∧ Slot.checkAll m slots operands = .ok () := by
  unfold form at h
  split at h
  · cases h
  · next found hfound =>
    obtain ⟨⟨⟩, hc, h⟩ := bind_ok.mp h
    cases h
    exact ⟨hfound, hc⟩

theorem Mnemonic.formOfLength_some {m : Mnemonic} {n : Nat} {slots : List Slot}
    (h : m.formOfLength? n = some slots) : slots ∈ m.forms ∧ slots.length = n :=
  ⟨List.mem_of_find?_eq_some h, by simpa using List.find?_some h⟩

namespace Layout

/-- The number that the operand of a jump became, and the words that it went into. -/
theorem resolveInstruction_target {l : Layout} {linker : Bool} {here : Nat} {i r : Instruction}
    {bytes : List UInt8} (h : l.resolveInstruction linker here i = .ok (r, bytes)) :
    ∃ slots, i.mnemonic.form i.operands = .ok slots ∧
      ∀ slot o, (slot, o) ∈ slots.zip i.operands → slot.isJump →
        ∃ p, l.resolveOperand linker here slot o = .ok p ∧
          ∀ k, p = .number k → slot.check i.mnemonic (.number k) = .ok () ∧
            slot.target? here (Word.ofBytes bytes) = some (slot.aim here k) := by
  unfold resolveInstruction at h
  simp only [bind_ok, pure_ok, mapError_ok] at h
  obtain ⟨slots, hform, operands, hops, e, he, h⟩ := h
  cases h
  refine ⟨slots, hform, ?_⟩
  intro slot o hm hj
  obtain ⟨hfind, _⟩ := Mnemonic.form_ok hform
  obtain ⟨hmem, hlen⟩ := Mnemonic.formOfLength_some hfind
  obtain ⟨hlen', hres⟩ := mem_resolveOperands hops hlen
  obtain ⟨p, hp, hm'⟩ := hres _ _ hm
  refine ⟨p, hp, ?_⟩
  intro k hk
  subst hk
  unfold Instruction.encode at he
  obtain ⟨slots', hform', he⟩ := bind_ok.mp he
  obtain ⟨hfind', hcheck⟩ := Mnemonic.form_ok hform'
  obtain rfl : slots = slots' := by
    simp only [hlen', hfind, Option.some.injEq] at hfind'
    exact hfind'
  have hfits := Slot.check_of_checkAll hcheck _ hm'
  refine ⟨hfits, ?_⟩
  split at he
  · cases he
  · cases he
    rw [Encoding.ofBytes_bytes]
    have hslot := i.mnemonic.jumpForm slots hmem slot (List.of_mem_zip hm).1 hj
    exact hslot.target_assemble here hm' hfits

/-- A label becomes the number that counts from the instruction, or from the start of memory. -/
theorem resolveInstruction_label {l : Layout} {linker : Bool} {here : Nat} {i r : Instruction}
    {bytes : List UInt8} (h : l.resolveInstruction linker here i = .ok (r, bytes)) :
    ∃ slots, i.mnemonic.form i.operands = .ok slots ∧
      ∀ slot ref, (slot, .label ref) ∈ slots.zip i.operands → slot.isJump →
        ∃ target, l.find? ref = some target ∧
          slot.target? here (Word.ofBytes bytes) =
            some (slot.aim here (reference here target slot)) := by
  obtain ⟨slots, hform, htarget⟩ := resolveInstruction_target h
  refine ⟨slots, hform, ?_⟩
  intro slot ref hm hj
  obtain ⟨p, hp, hnumber⟩ := htarget slot _ hm hj
  simp only [resolveOperand] at hp
  split at hp
  · next target hfound =>
    cases hp
    exact ⟨target, hfound, (hnumber _ rfl).2⟩
  · cases hp

theorem lines_instruction {l : Layout} {linker : Bool} {here : Nat} {es : List Entry}
    {xs : List Line} (h : l.lines linker here es = .ok xs) :
    ∀ x ∈ xs, ∀ source resolved, x.content = .instruction source resolved →
      l.resolveInstruction linker x.offset source = .ok (resolved, x.bytes) := by
  induction es generalizing here xs with
  | nil =>
    cases h
    simp
  | cons e es ih =>
    unfold lines at h
    obtain ⟨y, hy, h⟩ := bind_ok.mp h
    obtain ⟨ys, hys, h⟩ := bind_ok.mp h
    cases h
    intro x hx source resolved hc
    rcases List.mem_cons.mp hx with rfl | hx
    · cases e with
      | label n =>
        cases hy
        cases hc
      | instruction i =>
        simp only [line] at hy
        split at hy
        · next hi =>
          cases hy
          cases hc
          exact hi
        · cases hy
      | data d =>
        simp only [line] at hy
        split at hy
        · cases hy
          cases hc
        · cases hy
    · exact ih hys x hx source resolved hc

end Layout

theorem lookup_mem {ls : List (String × Nat)} (hd : (ls.map Prod.fst).Nodup) {name : String}
    {a : Nat} :
    ls.lookup name = some a ↔ (name, a) ∈ ls := by
  rw [List.lookup_eq_some_iff]
  constructor
  · rintro ⟨before, after, rfl, _⟩
    simp
  · intro h
    obtain ⟨before, after, rfl⟩ := List.append_of_mem h
    refine ⟨before, after, rfl, ?_⟩
    intro p hp
    simp only [List.map_append, List.map_cons, List.nodup_append] at hd
    simpa using (hd.2.2 p.1 (List.mem_map_of_mem hp) name (by simp)).symm

theorem lookup_perm {ls ms : List (String × Nat)} (h : ls.Perm ms) (hd : (ls.map Prod.fst).Nodup)
    (name : String) : ls.lookup name = ms.lookup name := by
  have hd' : (ms.map Prod.fst).Nodup := (h.map Prod.fst).nodup_iff.mp hd
  apply Option.ext
  intro a
  rw [lookup_mem hd, lookup_mem hd', h.mem_iff]

namespace Listing

/-- Where a reference leads: to its inner name if that is a label, and else to its outer one. -/
def address? (l : Listing) (r : LabelRef) : Option Nat :=
  (r.inner.bind fun name => l.labels.lookup name).or (l.labels.lookup r.name)

/-- A label that the line jumps to is where the words of the line lead. -/
def Lands (l : Listing) (x : Line) : Prop :=
  ∀ source resolved, x.content = .instruction source resolved →
    ∃ slots, source.mnemonic.form source.operands = .ok slots ∧
      ∀ slot ref, (slot, .label ref) ∈ slots.zip source.operands → slot.isJump →
        ∃ a, l.address? ref = some a ∧
          slot.target? x.offset (Word.ofBytes x.bytes) = some (a : Int)

theorem address_eq_find {l : Listing} {layout : Layout} (hp : l.labels.Perm layout.labels)
    (hd : (layout.labels.map Prod.fst).Nodup) (r : LabelRef) : l.address? r = layout.find? r := by
  have hlookup (name : String) : l.labels.lookup name = layout.labels.lookup name :=
    (lookup_perm hp.symm hd name).symm
  simp only [address?, Layout.find?, LabelRef.find?, LabelRef.candidates, hlookup]
  cases r.inner with
  | none => cases h : layout.labels.lookup r.name <;> simp [h]
  | some inner =>
    cases h : layout.labels.lookup inner <;> cases h' : layout.labels.lookup r.name <;> simp [h, h']

theorem mem_labels_of_address {l : Listing} {r : LabelRef} {a : Nat} (h : l.address? r = some a) :
    ∃ name, (name, a) ∈ l.labels := by
  have hm {name : String} (h : l.labels.lookup name = some a) : (name, a) ∈ l.labels := by
    obtain ⟨before, after, he, _⟩ := List.lookup_eq_some_iff.mp h
    simp [he]
  rcases Option.or_eq_some_iff.mp h with hi | ⟨_, ho⟩
  · obtain ⟨name, _, hn⟩ := Option.bind_eq_some_iff.mp hi
    exact ⟨name, hm hn⟩
  · exact ⟨r.name, hm ho⟩

theorem line_of_labelLines {l : Listing} {p : String × Nat} (h : p ∈ l.labelLines) :
    ∃ s ∈ l.sections, ∃ x ∈ s.lines, x.offset = p.2 := by
  obtain ⟨s, hs, hp⟩ := List.mem_flatMap.mp h
  obtain ⟨x, hx, hl⟩ := List.mem_filterMap.mp hp
  refine ⟨s, hs, x, hx, ?_⟩
  unfold Line.label? at hl
  split at hl
  · cases hl
    rfl
  · cases hl

end Listing

namespace Layout

theorem resolveBlock_lines {l : Layout} {linker : Bool} {b : Block} {s : Section}
    (h : l.resolveBlock linker b = .ok s) :
    l.lines linker b.origin b.entries.toList = .ok s.lines := by
  unfold resolveBlock at h
  obtain ⟨xs, hxs, h⟩ := bind_ok.mp h
  cases h
  exact hxs

theorem even_lines {l : Layout} {linker : Bool} {listing : Listing} (hs : l.Sound)
    (he : l.EvenOrigins) (h : l.resolve linker = .ok listing) :
    ∀ s ∈ listing.sections, ∀ x ∈ s.lines, x.offset % 2 = 0 := by
  intro s hsec
  obtain ⟨b, hb, hr⟩ := mem_of_forall₂ (resolve_ok h).1 hsec
  exact (resolveBlock_fills (hs.counted b hb) hr).1.even_offset (he b hb)

end Layout

/-- In a program that compiles everything lies at an even address, and every jump to a label leads,
when its words are read back, to the address of that label. -/
theorem compile_jumps_land (device : Device) (program : Program) (formats : List Format)
    (options : OutputOptions) (linker : Bool) (c : Compiled) (listing : Listing)
    (hcompile : compile device program (.ofFormats formats options) = .ok c)
    (hresolve : c.outputs.layout.resolve linker = .ok listing)
    (hbound : ∀ s ∈ listing.sections, ∀ x ∈ s.lines, x.offset < 2 ^ 31) :
    (∀ b ∈ c.outputs.layout.blocks, b.origin % 2 = 0) ∧
      (∀ p ∈ listing.labels, p.2 % 2 = 0) ∧
      ∀ s ∈ listing.sections, ∀ x ∈ s.lines, x.offset % 2 = 0 ∧ listing.Lands x := by
  obtain ⟨hsound, heven⟩ := compile_layout hcompile
  have hlines := Layout.even_lines hsound heven hresolve
  obtain ⟨hperm, hplaced⟩ := Layout.labels_perm hsound hresolve
  have hlabels : ∀ p ∈ listing.labels, p.2 % 2 = 0 ∧ p.2 < 2 ^ 31 := by
    intro p hp
    obtain ⟨s, hs, x, hx, ho⟩ := Listing.line_of_labelLines (hplaced.mem_iff.mp hp)
    exact ho ▸ ⟨hlines s hs x hx, hbound s hs x hx⟩
  refine ⟨heven, fun p hp => (hlabels p hp).1, ?_⟩
  intro s hs x hx
  refine ⟨hlines s hs x hx, ?_⟩
  unfold Listing.Lands
  intro source resolved hcontent
  obtain ⟨b, _, hb⟩ := mem_of_forall₂ (Layout.resolve_ok hresolve).1 hs
  have hi := Layout.lines_instruction (Layout.resolveBlock_lines hb) x hx source resolved hcontent
  obtain ⟨slots, hform, hjump⟩ := Layout.resolveInstruction_label hi
  refine ⟨slots, hform, ?_⟩
  intro slot ref hm hj
  obtain ⟨target, hfind, htarget⟩ := hjump slot ref hm hj
  have haddress := Listing.address_eq_find hperm hsound.distinct ref
  rw [hfind] at haddress
  obtain ⟨name, hname⟩ := Listing.mem_labels_of_address haddress
  obtain ⟨heven', hlt⟩ := hlabels _ hname
  refine ⟨target, haddress, ?_⟩
  rw [htarget, Layout.aim_reference (hlines s hs x hx) heven' (hbound s hs x hx) hlt]

namespace Sample

/-- Stands on this line of a sample. -/
def onLine {α : Type} (line : Nat) (x : α) : Located α := ⟨.point "a" line 1, x⟩

def at1 {α : Type} (x : α) : Located α := onLine 1 x

end Sample

open Sample in
/-- A branch and a jump back to a label of the procedure, and a jump to the procedure itself. -/
def sampleLoop : Program :=
  let body : List (Located Stmt) :=
    [at1 (.label "loop" false), at1 (.asm ⟨at1 "brne", [at1 (.ident "loop")]⟩),
      at1 (.goto "loop"), at1 (.asm ⟨at1 "jmp", [at1 (.ident "main")]⟩)]
  { vectors := none
    items := [at1 (.directive (at1 "org") [at1 (.number 256)]),
      at1 (.procedure ⟨at1 "main", [], body, false⟩)] }

def sampleDevice : Device := ⟨"sample", 8192, 96, 1024, 0, [], []⟩

def sampleListing : Checked Listing := do
  let c ← compile sampleDevice sampleLoop (.ofFormats [.hex] {})
  c.outputs.layout.resolve false

def sampleLines : List (List (Nat × List UInt8)) :=
  [[(256, []), (256, []), (256, [249, 247]), (258, [254, 207]), (260, [12, 148, 128, 0])]]

theorem sampleListing_lines :
    sampleListing.toOption.map (·.sections.map (·.lines.map fun x => (x.offset, x.bytes))) =
      some sampleLines := by
  decide +kernel

theorem compile_jumps_land_sample :
    ∃ c listing, compile sampleDevice sampleLoop (.ofFormats [.hex] {}) = .ok c ∧
      c.outputs.layout.resolve false = .ok listing ∧
      listing.sections.map (·.lines.map fun x => (x.offset, x.bytes)) = sampleLines ∧
      (∀ b ∈ c.outputs.layout.blocks, b.origin % 2 = 0) ∧
      (∀ p ∈ listing.labels, p.2 % 2 = 0) ∧
      ∀ s ∈ listing.sections, ∀ x ∈ s.lines, x.offset % 2 = 0 ∧ listing.Lands x := by
  obtain ⟨listing, hl, hlines⟩ := Option.map_eq_some_iff.mp sampleListing_lines
  have hl : sampleListing = .ok listing := Outcome.eq_ok_of_toOption hl
  obtain ⟨c, hc, hr⟩ := bind_ok.mp hl
  have hbound : ∀ row ∈ sampleLines, ∀ p ∈ row, p.1 < 2 ^ 31 := by decide
  refine ⟨c, listing, hc, hr, hlines, compile_jumps_land _ _ _ _ _ c listing hc hr ?_⟩
  intro s hs x hx
  exact hbound _ (hlines ▸ List.mem_map_of_mem hs) _ (List.mem_map_of_mem hx)

end Avr
