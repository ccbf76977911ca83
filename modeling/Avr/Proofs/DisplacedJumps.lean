import Avr.Proofs.Placement

namespace Avr

open Outcome

namespace Names

/-- The parts of an expression with two operands are found one by one. -/
theorem resolve_binary {n : Names} {e left right : Located Expr} {op : BinaryOp} {x y : Value}
    (he : e.value = .binary op left right) (hx : (n.resolve left).outcome = .ok x)
    (hy : (n.resolve right).outcome = .ok y) :
    (n.resolve e).outcome = (Value.ofBinary e.location op x y).outcome := by
  unfold resolve at hx hy ⊢
  rw [he, eval, Trace.bind_ok hx, Trace.bind_ok hy]

end Names

/-- The operator of a displaced label. -/
def ArithOp.ofSign (minus : Bool) : ArithOp := if minus then .sub else .add

/-- The address that a label with an offset stands for. -/
def displacedAddress (minus : Bool) (a : Nat) (k : Int32) : Int :=
  if minus then a - k.toInt else a + k.toInt

/-- The same within a word. -/
def displacedWord (minus : Bool) (a : Nat) (k : Int32) : Int32 :=
  if minus then .ofNat a - k else .ofNat a + k

namespace AddrExpr

/-- A label and an offset, to be settled once labels are placed. -/
def displaced (minus : Bool) (r : LabelRef) (k : Int32) : AddrExpr :=
  .binary (.arith (.ofSign minus)) (.address r) (.const k)

theorem eval_displaced {place : LabelRef → Option Nat} {minus : Bool} {r : LabelRef} {k j : Int32}
    (h : (displaced minus r k).eval place = .ok j) :
    ∃ a, place r = some a ∧ j = displacedWord minus a k := by
  simp only [displaced, eval] at h
  cases ha : place r with
  | none =>
    simp only [ha] at h
    cases h
  | some a =>
    simp only [ha] at h
    refine ⟨a, rfl, ?_⟩
    cases minus <;> cases h <;> rfl

end AddrExpr

namespace Scope

open Trace

variable {s : Scope} {p q : Progress} {es : List Emission}

theorem yields_plainOperand {slot : Option Slot} {last last' : Option IoRegister}
    {e : Located Expr} {o : Operand}
    (h : (s.plainOperand slot last e p).Yields es ((last', o), q)) :
    ∃ v, ((s.names p.aliases).resolve e).outcome = .ok v ∧
      (valueOperand e.location slot v).outcome = .ok o := by
  simp only [plainOperand, yields_bind_state, yields_lift] at h
  obtain ⟨v, _, _, _, hv, ⟨o', _, _, _, ⟨ho, rfl⟩, h, rfl⟩, rfl⟩ := h
  obtain ⟨rfl, hfound, rfl⟩ := yields_resolve.mp hv
  obtain ⟨rfl, he, rfl⟩ := yields_pure_state.mp h
  cases he
  exact ⟨v, hfound, ho.2⟩

theorem valueOperand_displaced {l : Location} {slot : Slot} {minus : Bool} {v : Value}
    {r : LabelRef} {k : Int32} (hj : slot.isJump) (hv : v = .label r ∨ v = .symbol r) :
    (valueOperand l (some slot) (.binary (.arith (.ofSign minus)) v (.const k))).outcome =
      .ok (.address (.displaced minus r k)) := by
  cases slot with
  | rel7 | rel12 | abs22 => rcases hv with rfl | rfl <;> cases minus <;> rfl
  | _ => cases hj

/-- A displaced label is left for later, whatever the slot of the jump. -/
theorem yields_operand_displaced {slot : Slot} {last last' : Option IoRegister}
    {e left right : Located Expr} {minus : Bool} {v : Value} {r : LabelRef} {k : Int32}
    {o : Operand} (hj : slot.isJump)
    (he : e.value = .binary (.arith (.ofSign minus)) left right)
    (hv : ((s.names p.aliases).resolve left).outcome = .ok v) (hr : v = .label r ∨ v = .symbol r)
    (hk : ((s.names p.aliases).resolve right).outcome = .ok (.const k))
    (h : (s.operand (some slot) last e p).Yields es ((last', o), q)) :
    o = .address (.displaced minus r k) := by
  simp only [operand, he] at h
  obtain ⟨w, hw, ho⟩ := yields_plainOperand h
  rw [Names.resolve_binary he hv hk] at hw
  have hbinary : w = .binary (.arith (.ofSign minus)) v (.const k) := by
    rcases hr with rfl | rfl <;> cases hw <;> rfl
  rw [hbinary, valueOperand_displaced hj hr] at ho
  cases ho
  rfl

/-- Operands are found one after the other, each by its slot. -/
theorem yields_operands_cons {slots : List Slot} {last : Option IoRegister} {e : Located Expr}
    {rest : List (Located Expr)} {operands : List Operand}
    (h : (s.operands slots last (e :: rest) p).Yields es (operands, q)) :
    ∃ last' o os r xs ys, (s.operand slots.head? last e p).Yields xs ((last', o), r) ∧
      (s.operands slots.tail last' rest r).Yields ys (os, q) ∧ operands = o :: os := by
  simp only [Scope.operands, yields_bind_state] at h
  obtain ⟨⟨last', o⟩, r, xs, _, ho, ⟨os, _, ys, _, hos, h, rfl⟩, rfl⟩ := h
  obtain ⟨rfl, rfl, rfl⟩ := yields_pure_state.mp h
  exact ⟨last', o, os, r, xs, ys, ho, hos, rfl⟩

theorem length_of_yields_operands {slots : List Slot} {last : Option IoRegister}
    {written : List (Located Expr)} {operands : List Operand}
    (h : (s.operands slots last written p).Yields es (operands, q)) :
    operands.length = written.length := by
  induction written generalizing slots last operands p es with
  | nil =>
    obtain ⟨_, rfl, _⟩ := yields_pure_state.mp h
    rfl
  | cons e rest ih =>
    obtain ⟨_, o, os, _, _, _, _, hos, rfl⟩ := yields_operands_cons h
    simp [ih hos]

/-- Of a jump that is written out, the displaced label is the operand in the slot of the target. -/
theorem yields_operands_displaced {m : Mnemonic} {slots : List Slot} {slot : Slot}
    {written : List (Located Expr)} {operands : List Operand} {last : Option IoRegister}
    {e left right : Located Expr} {minus : Bool} {v : Value} {r : LabelRef} {k : Int32}
    (hform : JumpForm m slots slot) (hj : slot.isJump) (hm : (slot, e) ∈ slots.zip written)
    (he : e.value = .binary (.arith (.ofSign minus)) left right)
    (hv : ((s.names p.aliases).resolve left).outcome = .ok v) (hr : v = .label r ∨ v = .symbol r)
    (hk : ((s.names p.aliases).resolve right).outcome = .ok (.const k))
    (h : (s.operands slots last written p).Yields es (operands, q)) :
    (slot, .address (.displaced minus r k)) ∈ slots.zip operands := by
  -- The target is the only operand, or it comes after a status bit, which changes no alias.
  have hone {slots : List Slot} (hs : slots = [slot])
      (hm : (slot, e) ∈ slots.zip written)
      (h : (s.operands slots last written p).Yields es (operands, q)) :
      (slot, .address (.displaced minus r k)) ∈ slots.zip operands := by
    subst hs
    obtain ⟨e', rest, rfl⟩ : ∃ e' rest, written = e' :: rest :=
      List.exists_cons_of_ne_nil (by rintro rfl; cases hm)
    obtain rfl : e = e' := by simpa using hm
    obtain ⟨_, o, os, _, _, _, ho, _, rfl⟩ := yields_operands_cons h
    simp [yields_operand_displaced hj he hv hr hk ho]
  cases hform with
  | relative _ _ _ hs _ _ _ => exact hone hs hm h
  | far _ _ hs hslot _ _ => exact hone (hslot ▸ hs) hm h
  | status _ _ hs hslot _ =>
    subst hs hslot
    obtain ⟨b, e', rest, rfl⟩ : ∃ b e' rest, written = b :: e' :: rest := by
      match written, hm with
      | b :: e' :: rest, _ => exact ⟨b, e', rest, rfl⟩
    obtain rfl : e = e' := by simpa using hm
    obtain ⟨_, o, os, _, _, _, hb, hrest, rfl⟩ := yields_operands_cons h
    obtain ⟨_, rfl, _⟩ := s.reads_operand rfl _ b _ _ _ _ hb
    obtain ⟨_, o', os', _, _, _, ho, _, rfl⟩ := yields_operands_cons hrest
    simp [yields_operand_displaced hj he hv hr hk ho]

end Scope

namespace Slot

/-- A number that is an address leads to that address only from one place. -/
theorem aim_displacedWord_iff {slot : Slot} {m : Mnemonic} {here a : Nat} {minus : Bool}
    {k : Int32} (hj : slot.isJump)
    (hc : slot.check m (.number (displacedWord minus a k)) = .ok ()) (hhere : here < 2 ^ 31)
    (ha : a < 2 ^ 31) :
    slot.aim here (displacedWord minus a k) = displacedAddress minus a k ↔
      displacedAddress minus a k = if slot.isRelative then -((here : Int) + 2) else 0 := by
  obtain ⟨min, max, hrange, hmin, hmax⟩ := check_number hj hc
  have hk := k.toInt_lt
  have hk' := k.le_toInt
  have hword : (displacedWord minus a k).toInt =
      (displacedAddress minus a k).bmod (2 ^ 32) := by
    cases minus with
    | true =>
      change (Int32.ofNat a - k).toInt = _
      rw [Int32.toInt_sub, Int32.toInt_ofNat_of_lt ha]
      rfl
    | false =>
      change (Int32.ofNat a + k).toInt = _
      rw [Int32.toInt_add, Int32.toInt_ofNat_of_lt ha]
      rfl
  have hbounds : -2 ^ 31 ≤ displacedAddress minus a k ∧ displacedAddress minus a k < 2 ^ 32 := by
    unfold displacedAddress
    split <;> omega
  generalize displacedWord minus a k = w at *
  generalize displacedAddress minus a k = target at *
  rw [Int.bmod_def] at hword
  unfold aim
  cases slot with
  | rel7 =>
    cases hrange
    change -64 ≤ w.toInt at hmin
    simp only [isRelative, if_true]
    split at hword <;> omega
  | rel12 =>
    cases hrange
    change -2048 ≤ w.toInt at hmin
    simp only [isRelative, if_true]
    split at hword <;> omega
  | abs22 =>
    simp only [isRelative, Bool.false_eq_true, if_false]
    split at hword <;> omega
  | _ => cases hj

end Slot

/-- What a jump leads to whose operand is a displaced label. -/
theorem Layout.resolveInstruction_displaced {l : Layout} {linker : Bool} {here : Nat}
    {i r : Instruction} {bytes : List UInt8} {slots : List Slot} {slot : Slot} {minus : Bool}
    {ref : LabelRef} {k : Int32} (h : l.resolveInstruction linker here i = .ok (r, bytes))
    (hslots : i.mnemonic.formOfLength? i.operands.length = some slots)
    (hm : (slot, .address (.displaced minus ref k)) ∈ slots.zip i.operands) (hj : slot.isJump) :
    ∃ a, l.find? ref = some a ∧
      slot.check i.mnemonic (.number (displacedWord minus a k)) = .ok () ∧
      slot.target? here (Word.ofBytes bytes) = some (slot.aim here (displacedWord minus a k)) := by
  obtain ⟨slots', hform, htarget⟩ := resolveInstruction_target h
  obtain ⟨hfind, _⟩ := Mnemonic.form_ok hform
  obtain rfl : slots = slots' := Option.some.inj (hslots.symm.trans hfind)
  obtain ⟨p, hp, hnumber⟩ := htarget slot _ hm hj
  simp only [resolveOperand] at hp
  split at hp
  · next j hj =>
    cases hp
    obtain ⟨a, ha, rfl⟩ := AddrExpr.eval_displaced hj
    exact ⟨a, ha, hnumber _ rfl⟩
  · cases hp

/-- In a program that compiles, the operand `label + k` or `label - k` of a jump that is written
out is put into the slot as the address of the label plus or minus `k`. The jump leads where that
number leads to from its line, and this is the address meant only if the address is zero, or, from
the next instruction on, if it lies as far below zero as that instruction lies above. -/
theorem displaced_jump_lands_iff (device : Device) (program : Program) (formats : List Format)
    (options : OutputOptions) (linker : Bool) (c : Compiled) (listing : Listing) (s : Scope)
    (i : AsmInstruction) (p q : Progress) (es : List Emission) (size : Nat) (m : Mnemonic)
    (slots : List Slot) (slot : Slot) (e left right : Located Expr) (minus : Bool) (v : Value)
    (r : LabelRef) (k : Int32)
    (hformats : formats ≠ [])
    (hcompile : compile device program (.ofFormats formats options) = .ok c)
    (hresolve : c.outputs.layout.resolve linker = .ok listing)
    (hbound : ∀ sec ∈ listing.sections, ∀ x ∈ sec.lines, x.offset < 2 ^ 31)
    (hlower : (s.asm i p).Yields es (size, q))
    (hpart : es <:+:
      (program.lower device (Outputs.ofFormats formats options).linksExternals).emitted)
    (hm : Mnemonic.ofName? i.mnemonic.value = some m)
    (hslots : m.formOfLength? i.operands.length = some slots)
    (hslot : (slot, e) ∈ slots.zip i.operands) (hjump : slot.isJump)
    (he : e.value = .binary (.arith (.ofSign minus)) left right)
    (hleft : ((s.names p.aliases).resolve left).outcome = .ok v)
    (hlabel : v = .label r ∨ v = .symbol r)
    (hright : ((s.names p.aliases).resolve right).outcome = .ok (.const k)) :
    ∃ a operands, listing.address? r = some a ∧
      (∃ sec ∈ listing.sections, ∃ x ∈ sec.lines, ∃ resolved,
        x.content = .instruction ⟨m, operands, s.comment⟩ resolved) ∧
      ∀ sec ∈ listing.sections, ∀ x ∈ sec.lines, ∀ resolved,
        x.content = .instruction ⟨m, operands, s.comment⟩ resolved →
        slot.target? x.offset (Word.ofBytes x.bytes) =
            some (slot.aim x.offset (displacedWord minus a k)) ∧
          (slot.target? x.offset (Word.ofBytes x.bytes) = some (displacedAddress minus a k) ↔
            displacedAddress minus a k =
              if slot.isRelative then -((x.offset : Int) + 2) else 0) := by
  obtain ⟨hsound, _⟩ := compile_layout hcompile
  obtain ⟨hperm, hplaced⟩ := Layout.labels_perm hsound hresolve
  have haddress := Listing.address_eq_find hperm hsound.distinct
  -- The operand as it is emitted.
  obtain ⟨m', operands, xs, hm', hoperands, rfl⟩ := Scope.yields_asm hlower
  obtain rfl : m = m' := Option.some.inj (hm.symm.trans hm')
  obtain ⟨hmem, _⟩ := Mnemonic.formOfLength_some hslots
  have hform := m.jumpForm slots hmem slot (List.of_mem_zip hslot).1 hjump
  rw [hslots, Option.getD_some] at hoperands
  have hoperand :=
    Scope.yields_operands_displaced hform hjump hslot he hleft hlabel hright hoperands
  have hlength : m.formOfLength? operands.length = some slots := by
    rw [Scope.length_of_yields_operands hoperands, hslots]
  -- The line of the instruction.
  obtain ⟨before, after, hemitted⟩ := hpart
  have happly := compile_applyAll hformats hcompile
  rw [← hemitted, ← List.append_assoc] at happly
  obtain ⟨start, ys, hplaces, hsection⟩ :=
    Layout.exists_places happly (by simp [Emission.InPlace]) hresolve
  obtain ⟨x, _, resolved, _, hcontent, hline, hnil, rfl⟩ := hplaces.instruction
  obtain ⟨a, ha, _, _⟩ := Layout.resolveInstruction_displaced hline hlength hoperand hjump
  have hfound : listing.address? r = some a := (haddress r).trans ha
  have hlt : a < 2 ^ 31 := by
    obtain ⟨name, hname⟩ := Listing.mem_labels_of_address hfound
    obtain ⟨sec, hsec, y, hy, ho⟩ := Listing.line_of_labelLines (hplaced.mem_iff.mp hname)
    have hy := hbound sec hsec y hy
    rwa [ho] at hy
  obtain ⟨sec, hsec, pre, post, hlines⟩ := hsection (by simp)
  refine ⟨a, operands, hfound, ⟨sec, hsec, x, by simp [hlines], resolved, hcontent⟩, ?_⟩
  intro sec hsec x hx resolved hcontent
  obtain ⟨b, _, hb⟩ := mem_of_forall₂ (Layout.resolve_ok hresolve).1 hsec
  have hi := Layout.lines_instruction (Layout.resolveBlock_lines hb) x hx _ resolved hcontent
  obtain ⟨a', ha', hcheck, htarget⟩ :=
    Layout.resolveInstruction_displaced hi hlength hoperand hjump
  obtain rfl : a = a' := Option.some.inj (ha.symm.trans ha')
  refine ⟨htarget, ?_⟩
  rw [htarget, Option.some.injEq]
  exact Slot.aim_displacedWord_iff hjump hcheck (hbound sec hsec x hx) hlt

namespace DisplacedSample

open Sample

/-- `spot + 0` -/
def target : Located Expr :=
  at1 (.binary (.arith .add) (at1 (.ident "spot")) (at1 (.number 0)))

def jump : AsmInstruction := ⟨at1 "rjmp", [target]⟩

def main : Procedure where
  name := at1 "main"
  params := []
  body := [at1 (.asm ⟨at1 "nop", []⟩), at1 (.label "spot" false), at1 (.asm jump)]
  inline := false

def program : Program := { vectors := none, items := [at1 (.procedure main)] }

def scope : Scope :=
  { globals := { device := sampleDevice, procedures := [main] }, procedure := some main }

def spot : LabelRef := { inner := some "main@spot", name := "spot" }

def listing : Checked (Layout × Listing) := do
  let c ← compile sampleDevice program (.ofFormats [.binary] {})
  return (c.outputs.layout, ← c.outputs.layout.resolve false)

theorem listing_lines :
    listing.toOption.map (fun l => (l.1.find? spot, l.2.sections.map (·.lines.map (·.offset)))) =
      some (some 2, [[0, 0, 2, 2]]) := by
  decide +kernel

theorem resolve_spot :
    ((scope.names []).resolve (at1 (.ident "spot"))).outcome = .ok (.symbol spot) := by
  decide +kernel

theorem lowered_part :
    (scope.asm jump {}).emitted <:+: (program.lower sampleDevice false).emitted := by
  refine ⟨[.label (at1 "main"), .declare "main" .global,
    .instruction (at1 { mnemonic := .nop, operands := [] }), .label (at1 "main@spot")], [], ?_⟩
  with_unfolding_all rfl

theorem lowered_outcome : (scope.asm jump {}).outcome = .ok (2, {}) := by
  with_unfolding_all rfl

end DisplacedSample

open DisplacedSample Sample in
/-- The jump to `spot + 0`, which stands at `spot`, leads three words on. -/
theorem displaced_jump_lands_iff_zero :
    ∃ c listing, compile sampleDevice DisplacedSample.program (.ofFormats [.binary] {}) = .ok c ∧
      c.outputs.layout.resolve false = .ok listing ∧ listing.address? spot = some 2 ∧
      ∃ operands, ∃ sec ∈ listing.sections, ∃ x ∈ sec.lines, ∃ resolved,
        x.content = .instruction ⟨.rjmp, operands, none⟩ resolved ∧
        Slot.rel12.target? x.offset (Word.ofBytes x.bytes) = some (x.offset + 6) ∧
        Slot.rel12.target? x.offset (Word.ofBytes x.bytes) ≠ some 2 := by
  obtain ⟨l, hl, hlines⟩ := Option.map_eq_some_iff.mp listing_lines
  obtain ⟨hfind, hoffsets⟩ := Prod.mk.inj hlines
  have hl : DisplacedSample.listing = .ok l := Outcome.eq_ok_of_toOption hl
  obtain ⟨c, hc, hl⟩ := bind_ok.mp hl
  obtain ⟨listing, hr, hl⟩ := bind_ok.mp hl
  cases hl
  have hsound := (compile_layout hc).1
  have hspot : listing.address? spot = some 2 :=
    (Listing.address_eq_find (Layout.labels_perm hsound hr).1 hsound.distinct spot).trans hfind
  have hsmall : ∀ row ∈ [[0, 0, 2, 2]], ∀ n ∈ row, n < 2 ^ 31 := by decide
  have hbound : ∀ sec ∈ listing.sections, ∀ x ∈ sec.lines, x.offset < 2 ^ 31 := by
    intro sec hsec x hx
    exact hsmall _ (hoffsets ▸ List.mem_map_of_mem hsec) _ (List.mem_map_of_mem hx)
  obtain ⟨a, operands, ha, ⟨sec, hsec, x, hx, resolved, hcontent⟩, htarget⟩ :=
    displaced_jump_lands_iff sampleDevice DisplacedSample.program [.binary] {} false c listing scope
      jump {} {} _ 2 .rjmp [.rel12] .rel12 target (at1 (.ident "spot")) (at1 (.number 0)) false
      (.symbol spot) spot 0 (by simp) hc hr hbound ⟨rfl, lowered_outcome⟩ lowered_part
      (by decide +kernel) rfl (by simp [jump]) rfl rfl resolve_spot (.inr rfl) rfl
  obtain rfl : 2 = a := Option.some.inj (hspot.symm.trans ha)
  obtain ⟨haim, hiff⟩ := htarget sec hsec x hx resolved hcontent
  refine ⟨c, listing, hc, hr, hspot, operands, sec, hsec, x, hx, resolved, hcontent, ?_, ?_⟩
  · rw [haim]
    change some ((x.offset : Int) + 2 + 2 * 2) = _
    rw [Int.add_assoc]
    rfl
  · intro h
    have hzero : (2 : Int) = -((x.offset : Int) + 2) := hiff.mp h
    omega

end Avr
