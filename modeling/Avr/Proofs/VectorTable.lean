import Avr.Proofs.LabelTally
import Avr.Proofs.MemoryImage
import Avr.Proofs.SkipIdiom
import Avr.Proofs.StructuredFlow
import Avr.Proofs.WrittenCode

namespace Avr

open Outcome

namespace Program

/-- What is known before the first item, which is all procedures. -/
def globals (p : Program) (device : Device) : Globals where
  device
  procedures := p.items.filterMap (·.value.procedure?)
  externalProcedures := p.items.filterMap (·.value.externalProcedure?)

/-- Whether there is a procedure to start with. -/
def hasMain (p : Program) : Bool :=
  p.items.any fun i => i.value.procedure?.any (·.name.value = "main")

end Program

namespace Build

open Trace

variable {b : Build} {es : List Emission}

end Build

namespace VectorAction

open Trace

/-- The one instruction of a vector that does this. -/
def instruction? (s : Scope) : VectorAction → Option Instruction
  | run i => s.written? [] i
  | jumpToMain => some ⟨.rjmp, [.label (.plain "main")], s.comment⟩
  | giveUp => some ⟨.reti, [], s.comment⟩

theorem yields_lower {a : VectorAction} {s : Scope} {l : Location} {p q : Progress}
    {es : List Emission} {size : Nat} (hp : p.aliases = [])
    (h : (a.lower s l p).Yields es (size, q)) (hcount : es.countP Emission.isInstruction ≤ 1) :
    ∃ r here, a.instruction? s = some r ∧ size = r.size ∧ q = p ∧
      es = [.instruction ⟨here, r⟩] := by
  cases a with
  | run i =>
    obtain ⟨r, hr, hsize, hq, hes⟩ := Scope.yields_written_alone h hcount
    exact ⟨r, i.mnemonic.location, by rw [instruction?, ← hp, hr], hsize, hq, hes⟩
  | jumpToMain =>
    obtain ⟨_, _, _, _, hgoto, hpure, rfl⟩ := yields_bind_state.mp h
    obtain ⟨rfl, rfl⟩ := Scope.yields_goto hgoto
    obtain ⟨rfl, rfl, rfl⟩ := yields_pure_state.mp hpure
    exact ⟨_, l, rfl, rfl, rfl, rfl⟩
  | giveUp =>
    obtain ⟨_, _, _, _, hplace, hpure, rfl⟩ := yields_bind_state.mp h
    obtain ⟨⟨is, his, rfl⟩, rfl⟩ := Scope.yields_place.mp hplace
    obtain ⟨rfl, rfl, rfl⟩ := yields_pure_state.mp hpure
    rw [Selection.gives_emit his]
    exact ⟨_, l, rfl, rfl, rfl, rfl⟩

end VectorAction

namespace Globals

open Trace

/-- The padding of a slot. -/
def nops (l : Location) (n : Nat) : List (Located Instruction) :=
  List.replicate n ⟨l, .nop, [], none⟩

theorem yields_nops {l : Location} {n : Nat} {p q : Progress} {es : List Emission} {u : PUnit}
    (h : ((List.replicate n ()).forM (fun _ =>
      (liftM (Trace.place none l (Selection.emit .nop [])) : Lowering PUnit)) p).Yields es (u, q)) :
    es = (nops l n).map .instruction ∧ q = p := by
  induction n generalizing p es with
  | zero =>
    obtain ⟨rfl, rfl⟩ := yields_forM_nil.mp h
    exact ⟨rfl, rfl⟩
  | succ n ih =>
    obtain ⟨r, xs, ys, hnop, hrest, rfl⟩ := yields_forM_cons.mp h
    obtain ⟨hplace, rfl⟩ := yields_lift.mp hnop
    obtain ⟨is, his, rfl⟩ := yields_place.mp hplace
    obtain ⟨rfl, rfl⟩ := ih hrest
    rw [Selection.gives_emit his]
    exact ⟨rfl, rfl⟩

/-- A vector is its instruction between probes, and `nop` for the rest of the slot. -/
theorem yields_vector {g : Globals} {l : Location} {entries : List VectorEntry} {index : Nat}
    {v : Interrupt} {p q : Progress} {es : List Emission} (hp : p.aliases = [])
    (h : (g.vector l entries index v p).Yields es ((), q)) :
    q.aliases = [] ∧ ∃ r source start stop,
      (VectorAction.choose entries (g.procedure? "main").isSome v.name).instruction?
          { globals := g, comment := some v.name } = some r ∧
      es = .label ⟨l, start⟩ :: .instruction ⟨source, r⟩ :: .label ⟨l, stop⟩ ::
        .limit ⟨start, stop, g.device.vectorSlotSize index, l⟩ ::
          (nops l ((g.device.vectorSlotSize index - r.size + 1) / 2)).map .instruction := by
  obtain ⟨size, _, xs, ys, hlimited, hpad, rfl⟩ := yields_bind_state.mp h
  obtain ⟨start, stop, fs, hbody, hcount, rfl⟩ := Lowering.yields_limited hlimited
  obtain ⟨r, source, hr, rfl, rfl, rfl⟩ :=
    VectorAction.yields_lower (p := { p with probes := p.probes + 1 }) hp hbody hcount
  obtain ⟨rfl, rfl⟩ := yields_nops hpad
  exact ⟨hp, r, source, start, stop, hr, rfl⟩

end Globals

/-- The lines of a vector that fills its slot: the instruction comes first, and only `nop` comes
after it up to the next vector. -/
structure VectorLines (i : Instruction) (start stop : Nat) (x : Line) (padding : List Line) :
    Prop where
  offset : x.offset = start
  shows : x.Shows i
  nops : ∀ y ∈ padding, y.Shows ⟨.nop, [], none⟩ ∧ y.bytes = [0, 0]
  stop : start + x.bytes.length + 2 * padding.length = stop

namespace Layout

variable {l : Layout} {linker : Bool} {start : Nat} {es : List Emission} {zs : List Line}

theorem resolveInstruction_nop (l : Layout) (linker : Bool) (here : Nat) :
    l.resolveInstruction linker here ⟨.nop, [], none⟩ = .ok (⟨.nop, [], none⟩, [0, 0]) := rfl

theorem Places.nops {here : Location} {n : Nat}
    (h : l.Places linker start ((Globals.nops here n).map .instruction ++ es) zs) :
    ∃ padding ys, (∀ y ∈ padding, y.Shows ⟨.nop, [], none⟩ ∧ y.bytes = [0, 0]) ∧
      padding.length = n ∧ l.Places linker (start + 2 * n) es ys ∧ zs = padding ++ ys := by
  induction n generalizing start zs with
  | zero => exact ⟨[], zs, by simp, rfl, h, rfl⟩
  | succ n ih =>
    obtain ⟨x, _, r, -, hcontent, hr, hrest, rfl⟩ := Places.instruction h
    obtain ⟨padding, ys, hpadding, rfl, hys, rfl⟩ := ih hrest
    have hbytes : x.bytes = [0, 0] := by
      rw [resolveInstruction_nop] at hr
      exact (congrArg Prod.snd (Except.ok.inj hr)).symm
    refine ⟨x :: padding, ys, ?_, rfl, ?_, rfl⟩
    · intro y hy
      rcases List.mem_cons.mp hy with rfl | hy
      · exact ⟨⟨r, hcontent⟩, hbytes⟩
      · exact hpadding y hy
    · have hsum : start + 2 * (padding.length + 1) = start + 2 + 2 * padding.length := by omega
      rw [hsum]
      exact hys

/-- A vector that keeps to its limit takes up its slot, whatever its size is. -/
theorem Places.vector {slot : Nat} {first last : String} {here source : Location} {i : Instruction}
    (h : l.Places linker start
      (.label ⟨here, first⟩ :: .instruction ⟨source, i⟩ :: .label ⟨here, last⟩ ::
        .limit ⟨first, last, slot, here⟩ ::
          (Globals.nops here ((slot - i.size + 1) / 2)).map .instruction ++ es) zs)
    (hlimit : l.checkLimit ⟨first, last, slot, here⟩ = .ok ()) (hslot : slot % 2 = 0) :
    ∃ x padding ys, VectorLines i start (start + slot) x padding ∧
      l.Places linker (start + slot) es ys ∧
      zs.filter (!·.bytes.isEmpty) = x :: padding ++ ys.filter (!·.bytes.isEmpty) := by
  obtain ⟨hfirst, a, _, ha, h₁, rfl⟩ := Places.label h
  obtain ⟨x, _, r, hoffset, hcontent, hr, h₂, rfl⟩ := Places.instruction h₁
  obtain ⟨hlast, b, _, hb, h₃, rfl⟩ := Places.label h₂
  obtain ⟨padding, ys, hnops, hcount, hys, rfl⟩ := Places.nops h₃.limit
  have hlength : x.bytes.length = i.size := length_resolveInstruction hr
  have hsize : i.size ≤ slot := by
    simp only [checkLimit, hfirst, hlast] at hlimit
    split at hlimit
    · cases hlimit
    · omega
  have hwords : i.size = 2 ∨ i.size = 4 := i.mnemonic.size_cases
  -- Sizes of instructions and of slots are even, so rounding up the padding adds nothing.
  have hfull : i.size + 2 * ((slot - i.size + 1) / 2) = slot := by omega
  have hx : x.bytes ≠ [] := by
    intro hnil
    rw [hnil, List.length_nil] at hlength
    omega
  have hkeep : padding.filter (!·.bytes.isEmpty) = padding := by
    refine List.filter_eq_self.mpr fun y hy => ?_
    rw [(hnops y hy).2]
    rfl
  refine ⟨x, padding, ys, ⟨hoffset, ⟨r, hcontent⟩, hnops, ?_⟩, ?_, ?_⟩
  · rw [hlength, hcount, Nat.add_assoc, hfull]
  · rwa [Nat.add_assoc, hfull] at hys
  · simp [ha, hb, hx, hkeep]

end Layout

namespace Layout

end Layout

namespace Device

theorem even_vectorSlotSize (d : Device) (index : Nat) : d.vectorSlotSize index % 2 = 0 := by
  have heven (n : Nat) : wrap32 (2 * n) % 2 = 0 := by
    unfold wrap32 UInt32.size
    omega
  exact heven _

/-- The end of the slots before a vector. -/
def vectorStart (d : Device) : Nat → Nat
  | 0 => 0
  | index + 1 => d.vectorStart index + d.vectorSlotSize index

-- The first slot of this device has lost its upper bits.
example :
    vectorStart ⟨"far", 8192, 96, 1024, 0, [⟨"RESET", 0⟩, ⟨"FAR", 2147483649⟩], []⟩ 1 = 2 := by
  decide

end Device

namespace Layout

/-- Each vector starts where the slots before it end. -/
theorem Places.vectors {l : Layout} {linker : Bool} {g : Globals} {entries : List VectorEntry}
    {here : Location} {rest : List Interrupt} {index : Nat} {p q : Progress} {es : List Emission}
    {zs : List Line} (hrest : g.device.interrupts.drop index = rest) (hp : p.aliases = [])
    (hyields : ((rest.zipIdx index).forM (fun (v, k) => g.vector here entries k v) p).Yields es
      ((), q))
    (hlimits : ∀ s, .limit s ∈ es → l.checkLimit s = .ok ())
    (hplaces : l.Places linker (g.device.vectorStart index) es zs) {k : Nat} {v : Interrupt}
    (hk : index ≤ k) (hv : g.device.interrupts[k]? = some v) :
    ∃ i x padding before after,
      (VectorAction.choose entries (g.procedure? "main").isSome v.name).instruction?
          { globals := g, comment := some v.name } = some i ∧
      VectorLines i (g.device.vectorStart k) (g.device.vectorStart (k + 1)) x padding ∧
      zs.filter (!·.bytes.isEmpty) = before ++ x :: padding ++ after := by
  -- The walk goes along the rest of the table, and is at the start of the next slot.
  induction rest generalizing index p es zs with
  | nil =>
    have hle := List.drop_eq_nil_iff.mp hrest
    rw [List.getElem?_eq_none (by omega)] at hv
    cases hv
  | cons w rest ih =>
    have hw : g.device.interrupts[index]? = some w := by
      rw [← List.head?_drop, hrest]
      rfl
    have hnext : g.device.interrupts.drop (index + 1) = rest := by
      rw [← List.tail_drop, hrest]
      rfl
    rw [List.zipIdx_cons] at hyields
    obtain ⟨r, _, ys, hvector, hothers, rfl⟩ := Trace.yields_forM_cons.mp hyields
    obtain ⟨hr, i, source, first, last, hi, rfl⟩ := Globals.yields_vector hp hvector
    have hlimit := hlimits ⟨first, last, g.device.vectorSlotSize index, here⟩ (by simp)
    obtain ⟨x, padding, ws, hlines, hws, hcode⟩ :=
      hplaces.vector hlimit (g.device.even_vectorSlotSize index)
    by_cases heq : k = index
    · subst heq
      obtain rfl : w = v := Option.some.inj (hw.symm.trans hv)
      exact ⟨i, x, padding, [], _, hi, hlines, hcode⟩
    · obtain ⟨i, y, more, before, after, hi, hlines, hlater⟩ :=
        ih hnext hr hothers (fun s hs => hlimits s (List.mem_append_right _ hs)) hws (by omega)
      refine ⟨i, y, more, x :: padding ++ before, after, hi, hlines, ?_⟩
      rw [hcode, hlater]
      simp

end Layout

namespace Section

variable {s : Section} {b : Block}

end Section

namespace Listing

end Listing

namespace VectorSample

open Sample

/-- The slot of `INT0` has two words. -/
def device : Device where
  name := "sample"
  flashSize := 16384
  ramStart := 96
  ramSize := 1024
  interrupts := [⟨"RESET", 0⟩, ⟨"INT0", 1⟩, ⟨"TIMER", 3⟩]
  registers := []

def table : Located (List VectorEntry) :=
  at1 [⟨at1 "INT0", at1 ⟨at1 "rjmp", [at1 (.ident "tick")]⟩⟩]

def procedure (name : String) : Located Item :=
  at1 (.procedure
    { name := at1 name, params := [], body := [at1 (.asm ⟨at1 "ret", []⟩)], inline := false })

def program : Program := { vectors := some table, items := [procedure "main", procedure "tick"] }

def listing : Checked Listing := do
  let c ← compile device program (.ofFormats [.hex] {})
  c.outputs.layout.resolve false

/-- `RESET` goes to `main`, `INT0` to `tick`, and `TIMER` returns. -/
theorem listing_bytes :
    listing.toOption.map (·.sections.map (·.code.map fun x => (x.offset, x.bytes))) =
      some [[(0, [4, 192]), (2, [4, 192]), (4, [0, 0]), (6, [24, 149]), (8, [0, 0]),
        (10, [8, 149]), (12, [8, 149])]] := by
  decide +kernel

end VectorSample

end Avr
