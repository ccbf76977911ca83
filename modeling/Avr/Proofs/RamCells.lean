import Avr.Proofs.ControlMachine
import Avr.Proofs.JumpTargets
import Avr.Proofs.VariableNames

namespace Avr

/-- RAM by data addresses. Registers are not among its cells. -/
abbrev Ram := Nat → Byte

namespace Ram

/-- What loads and stores with a fixed address do, and instructions on registers. -/
def effect : Effect Ram := fun m operands s =>
  match m, operands with
  | .lds, [.reg d, .number k] => some { s with cpu := s.cpu.set d (s.rest k.toNatClampNeg) }
  | .sts, [.number k, .reg r] =>
    some { s with rest := Function.update s.rest k.toNatClampNeg (s.cpu.regs r) }
  | _, _ => (s.cpu.exec { mnemonic := m, operands }).map fun cpu => { s with cpu }

/-- Runs instructions one after the other. -/
def run (is : List Instruction) (s : State Ram) : Option (State Ram) :=
  is.foldlM (fun s i => i.perform effect s) s

theorem run_cons {i : Instruction} {is : List Instruction} {s t u : State Ram}
    (hi : i.perform effect s = some t) (his : run is t = some u) : run (i :: is) s = some u := by
  rw [run, List.foldlM_cons, hi]
  exact his

theorem run_withComment (c : Option String) (is : List Instruction) (s : State Ram) :
    run (is.map (·.withComment c)) s = run is s := by
  simp only [run, List.foldlM_map, Instruction.perform_withComment]

end Ram

namespace Selection

variable {a : Nat} {r : Reg} {is : List Instruction}

theorem form_sts {k : Int32} :
    (∃ slots, Mnemonic.sts.form [.number k, .reg r] = .ok slots) ↔ 0 ≤ k ∧ k ≤ 0xffff := by
  by_cases h : 0 ≤ k ∧ k ≤ 0xffff <;>
    simp [Mnemonic.form, Mnemonic.formOfLength?, Mnemonic.forms, Slot.checkAll, Slot.check,
      Slot.range?, Slot.checkNumber, h, bind, Except.bind, pure, Except.pure]

theorem form_lds {k : Int32} :
    (∃ slots, Mnemonic.lds.form [.reg r, .number k] = .ok slots) ↔ 0 ≤ k ∧ k ≤ 0xffff := by
  by_cases h : 0 ≤ k ∧ k ≤ 0xffff <;>
    simp [Mnemonic.form, Mnemonic.formOfLength?, Mnemonic.forms, Slot.checkAll, Slot.check,
      Slot.range?, Slot.checkNumber, h, bind, Except.bind, pure, Except.pure]

/-- Of the addresses that are words of 32 bits, those of 16 bits fit an instruction. -/
theorem fits_ofNat (ha : a < UInt32.size) :
    (0 ≤ Int32.ofNat a ∧ Int32.ofNat a ≤ 0xffff) ↔ a < 0x10000 := by
  rw [Int32.le_iff_toInt_le, Int32.le_iff_toInt_le, Int32.toInt_ofNat']
  have hzero : (0 : Int32).toInt = 0 := rfl
  have hlast : (0xffff : Int32).toInt = 65535 := rfl
  rw [hzero, hlast, Int.bmod_def]
  simp only [UInt32.size, Int32.size] at ha ⊢
  omega

theorem gives_storeCell (ha : a < UInt32.size) :
    (storeCell a r).Gives is ↔
      a < 0x10000 ∧ is = [{ mnemonic := .sts, operands := [.number (.ofNat a), .reg r] }] := by
  rw [storeCell, gives_emit_iff, form_sts, fits_ofNat ha]

theorem gives_loadCell (ha : a < UInt32.size) :
    (loadCell r a).Gives is ↔
      a < 0x10000 ∧ is = [{ mnemonic := .lds, operands := [.reg r, .number (.ofNat a)] }] := by
  rw [loadCell, gives_emit_iff, form_lds, fits_ofNat ha]

end Selection

namespace Ram

variable {a : Nat} {r : Reg} {s : State Ram}

theorem perform_sts (ha : a < 0x10000) :
    Instruction.perform effect { mnemonic := .sts, operands := [.number (.ofNat a), .reg r] } s =
      some { s with rest := Function.update s.rest a (s.cpu.regs r) } := by
  have hk : (Int32.ofNat a).toNatClampNeg = a := Int32.toNatClampNeg_ofNat_of_lt (by omega)
  simp [Instruction.perform, effect, hk]

theorem perform_lds (ha : a < 0x10000) :
    Instruction.perform effect { mnemonic := .lds, operands := [.reg r, .number (.ofNat a)] } s =
      some { s with cpu := s.cpu.set r (s.rest a) } := by
  have hk : (Int32.ofNat a).toNatClampNeg = a := Int32.toNatClampNeg_ofNat_of_lt (by omega)
  simp [Instruction.perform, effect, hk]

/-- Stores to distinct cells fill these cells and no other. -/
theorem run_stores {base : Nat} {xs : List (Nat × Reg)} {is : List Instruction}
    (hdistinct : (xs.map Prod.fst).Nodup) (hbound : ∀ x ∈ xs, base + x.1 < UInt32.size)
    (h : (Selection.sequence (xs.map fun x => .storeCell (base + x.1) x.2)).Gives is)
    (s : State Ram) :
    ∃ t, run is s = some t ∧ t.cpu = s.cpu ∧
      (∀ x ∈ xs, t.rest (base + x.1) = s.cpu.regs x.2) ∧
      ∀ a, (∀ x ∈ xs, a ≠ base + x.1) → t.rest a = s.rest a := by
  induction xs generalizing is s with
  | nil =>
    obtain rfl := Selection.gives_sequence_nil.mp h
    exact ⟨s, rfl, rfl, by simp, by simp⟩
  | cons x xs ih =>
    obtain ⟨hx, hdistinct⟩ := List.nodup_cons.mp hdistinct
    obtain ⟨_, js, hone, hrest, rfl⟩ := Selection.gives_sequence_cons.mp h
    obtain ⟨hlt, rfl⟩ := (Selection.gives_storeCell (hbound x (by simp))).mp hone
    obtain ⟨t, hrun, hcpu, hcells, hother⟩ :=
      ih hdistinct (fun y hy => hbound y (by simp [hy])) hrest
        { s with rest := Function.update s.rest (base + x.1) (s.cpu.regs x.2) }
    refine ⟨t, run_cons (perform_sts hlt) hrun, hcpu, ?_, ?_⟩
    · intro y hy
      rcases List.mem_cons.mp hy with rfl | hy
      · have hlater : ∀ z ∈ xs, base + y.1 ≠ base + z.1 := by
          intro z hz heq
          exact hx (List.mem_map.mpr ⟨z, hz, by omega⟩)
        rw [hother _ hlater]
        exact Function.update_self ..
      · exact hcells y hy
    · intro a ha
      rw [hother a fun y hy => ha y (by simp [hy])]
      exact Function.update_of_ne (ha x (by simp)) ..

/-- Loads into distinct registers fill these registers and no other. -/
theorem run_loads {base : Nat} {xs : List (Nat × Reg)} {is : List Instruction}
    (hdistinct : (xs.map Prod.snd).Nodup) (hbound : ∀ x ∈ xs, base + x.1 < UInt32.size)
    (h : (Selection.sequence (xs.map fun x => .loadCell x.2 (base + x.1))).Gives is)
    (s : State Ram) :
    ∃ t, run is s = some t ∧ t.rest = s.rest ∧
      (∀ x ∈ xs, t.cpu.regs x.2 = s.rest (base + x.1)) ∧
      ∀ r, r ∉ xs.map Prod.snd → t.cpu.regs r = s.cpu.regs r := by
  induction xs generalizing is s with
  | nil =>
    obtain rfl := Selection.gives_sequence_nil.mp h
    exact ⟨s, rfl, rfl, by simp, by simp⟩
  | cons x xs ih =>
    obtain ⟨hx, hdistinct⟩ := List.nodup_cons.mp hdistinct
    obtain ⟨_, js, hone, hrest, rfl⟩ := Selection.gives_sequence_cons.mp h
    obtain ⟨hlt, rfl⟩ := (Selection.gives_loadCell (hbound x (by simp))).mp hone
    obtain ⟨t, hrun, hram, hregs, hother⟩ :=
      ih hdistinct (fun y hy => hbound y (by simp [hy])) hrest
        { s with cpu := s.cpu.set x.2 (s.rest (base + x.1)) }
    refine ⟨t, run_cons (perform_lds hlt) hrun, hram, ?_, ?_⟩
    · intro y hy
      rcases List.mem_cons.mp hy with rfl | hy
      · rw [hother _ hx]
        exact Cpu.set_regs_self ..
      · exact hregs y hy
    · intro r hr
      obtain ⟨hne, hr⟩ := not_or.mp (mt List.mem_cons.mpr hr)
      rw [hother r hr]
      exact Cpu.set_regs_of_ne _ _ hne

end Ram

theorem highFirst_cons (r : Reg) (rs : List Reg) :
    highFirst (r :: rs) = (rs.length, r) :: highFirst rs := by
  simp [highFirst, List.range_succ]

/-- A register of a group stands for the byte that its place from the end says. -/
theorem mem_highFirst {rs : List Reg} {n : Nat} {r : Reg} :
    (n, r) ∈ highFirst rs ↔ rs.reverse[n]? = some r := by
  induction rs with
  | nil => simp [highFirst]
  | cons q rs ih =>
    rw [highFirst_cons, List.mem_cons, ih, List.reverse_cons, Prod.mk.injEq]
    rcases Nat.lt_trichotomy n rs.length with hn | rfl | hn
    · rw [List.getElem?_append_left (by simpa using hn)]
      simp [hn.ne]
    · simp [eq_comm]
    · rw [List.getElem?_eq_none (by simpa using hn.le),
        List.getElem?_eq_none (by simpa using Nat.succ_le_of_lt hn)]
      simp [hn.ne']

theorem map_fst_highFirst (rs : List Reg) :
    (highFirst rs).map Prod.fst = (List.range rs.length).reverse := by
  simp [highFirst, List.map_fst_zip]

theorem map_snd_highFirst (rs : List Reg) : (highFirst rs).map Prod.snd = rs := by
  simp [highFirst, List.map_snd_zip]

theorem lt_of_mem_highFirst {rs : List Reg} {x : Nat × Reg} (h : x ∈ highFirst rs) :
    x.1 < rs.length := by
  have hmem : x.1 ∈ (highFirst rs).map Prod.fst := List.mem_map_of_mem h
  simpa [map_fst_highFirst] using hmem

theorem Variable.extent_scalar {v : Variable} (h : v.isArray = false) :
    v.extent = v.type.size := by
  have hnone : v.length = none := by simpa [isArray] using h
  simp [extent, hnone]

namespace Selection

variable {v : Variable} {rs : List Reg} {is : List Instruction}

theorem gives_if {c : Prop} [Decidable c] {code : Selection} {e : SemanticError} :
    Gives (if c then code else fail e) is ↔ c ∧ code.Gives is := by
  split <;> simp [*, not_gives_fail]

/-- Registers are stored to a variable of their own width. -/
theorem gives_store : (assign (.var v) (.ofRegisters rs)).Gives is ↔
    v.isArray = false ∧ v.type.size = rs.length ∧
      (sequence ((highFirst rs).map fun x => storeCell (v.address + x.1) x.2)).Gives is := by
  match rs with
  | [r] =>
    change (if !v.isArray && v.type.size = 1 then storeCell v.address r
      else fail .differentSizes).Gives is ↔ _ ∧ _ ∧ (sequence [storeCell v.address r]).Gives is
    rw [gives_if, gives_sequence_one]
    simp [and_assoc]
  | [] | _ :: _ :: _ =>
    refine gives_if.trans ?_
    simp [and_assoc]

/-- A variable that is no array is loaded into registers of its own width. -/
theorem gives_load (hv : v.isArray = false) : (assign (.ofRegisters rs) (.var v)).Gives is ↔
    v.type.size = rs.length ∧
      (sequence ((highFirst rs).map fun x => loadCell x.2 (v.address + x.1))).Gives is := by
  match rs with
  | [r] =>
    change (if !v.isArray && v.type.size = 1 then loadCell r v.address
      else fail .differentSizes).Gives is ↔ _ ∧ (sequence [loadCell r v.address]).Gives is
    rw [gives_if, gives_sequence_one]
    simp [hv]
  | [] | _ :: _ :: _ =>
    simp only [assign, assignSingle, Value.ofRegisters, Value.unmarked, assignGroup, hv]
    simpa using gives_if

/-- There is code if the addresses have 16 bits. -/
theorem exists_gives_store_load (hv : v.isArray = false) (hsize : v.extent = rs.length)
    (hstop : v.stop ≤ 0x10000) :
    (∃ is, (assign (.var v) (.ofRegisters rs)).Gives is) ∧
      ∃ is, (assign (.ofRegisters rs) (.var v)).Gives is := by
  have htype : v.type.size = rs.length := (Variable.extent_scalar hv).symm.trans hsize
  have hlt : ∀ x ∈ highFirst rs, v.address + x.1 < 0x10000 := by
    intro x hx
    have hx := lt_of_mem_highFirst hx
    rw [Variable.stop] at hstop
    omega
  have hword : 0x10000 < UInt32.size := by decide
  have hstore : ∀ x ∈ highFirst rs, ∃ is, (storeCell (v.address + x.1) x.2).Gives is :=
    fun x hx => ⟨_, (gives_storeCell ((hlt x hx).trans hword)).mpr ⟨hlt x hx, rfl⟩⟩
  have hload : ∀ x ∈ highFirst rs, ∃ is, (loadCell x.2 (v.address + x.1)).Gives is :=
    fun x hx => ⟨_, (gives_loadCell ((hlt x hx).trans hword)).mpr ⟨hlt x hx, rfl⟩⟩
  obtain ⟨is, his⟩ := exists_gives_sequence hstore
  obtain ⟨js, hjs⟩ := exists_gives_sequence hload
  exact ⟨⟨is, gives_store.mpr ⟨hv, htype, his⟩⟩, js, (gives_load hv).mpr ⟨htype, hjs⟩⟩

end Selection

namespace Ram

variable {v : Variable} {g h : List Reg} {is js : List Instruction}

/-- The bytes of the registers go to the bytes of the variable, and no other byte changes. -/
theorem run_store (hstop : v.stop ≤ UInt32.size)
    (hgives : (Selection.assign (.var v) (.ofRegisters g)).Gives is) (s : State Ram) :
    ∃ t, run is s = some t ∧ t.cpu = s.cpu ∧
      (∀ n r, g.reverse[n]? = some r → t.rest (v.address + n) = s.cpu.regs r) ∧
      ∀ a, ¬ v.Holds a → t.rest a = s.rest a := by
  obtain ⟨harray, hsize, hsequence⟩ := Selection.gives_store.mp hgives
  have hlength : v.extent = g.length := (Variable.extent_scalar harray).trans hsize
  have hbyte : ∀ x ∈ highFirst g, v.address + x.1 < v.stop := by
    intro x hx
    have hlt := lt_of_mem_highFirst hx
    rw [Variable.stop]
    omega
  obtain ⟨t, hrun, hcpu, hcells, hother⟩ :=
    run_stores (by simp [map_fst_highFirst, List.nodup_range])
      (fun x hx => (hbyte x hx).trans_le hstop) hsequence s
  refine ⟨t, hrun, hcpu, fun n r hr => hcells (n, r) (mem_highFirst.mpr hr), ?_⟩
  intro a ha
  apply hother
  intro x hx heq
  exact ha ⟨by omega, heq ▸ hbyte x hx⟩

/-- The bytes of the variable go to the registers, and no other register changes. -/
theorem run_load (harray : v.isArray = false) (hstop : v.stop ≤ UInt32.size) (hh : h.Nodup)
    (hgives : (Selection.assign (.ofRegisters h) (.var v)).Gives js) (s : State Ram) :
    ∃ t, run js s = some t ∧ t.rest = s.rest ∧
      (∀ n r, h.reverse[n]? = some r → t.cpu.regs r = s.rest (v.address + n)) ∧
      ∀ r, r ∉ h → t.cpu.regs r = s.cpu.regs r := by
  obtain ⟨hsize, hsequence⟩ := (Selection.gives_load harray).mp hgives
  have hlength : v.extent = h.length := (Variable.extent_scalar harray).trans hsize
  have hbound : ∀ x ∈ highFirst h, v.address + x.1 < UInt32.size := by
    intro x hx
    have hlt := lt_of_mem_highFirst hx
    rw [Variable.stop] at hstop
    omega
  obtain ⟨t, hrun, hram, hregs, hother⟩ :=
    run_loads (by rwa [map_snd_highFirst]) hbound hsequence s
  rw [map_snd_highFirst] at hother
  exact ⟨t, hrun, hram, fun n r hr => hregs (n, r) (mem_highFirst.mpr hr), hother⟩

/-- What is stored from registers and then loaded into registers. -/
structure RoundTrip (v : Variable) (g h : List Reg) (s t u : State Ram) : Prop where
  width : g.length = v.extent
  /-- The last register of the group is the low byte, which is at the lowest address. -/
  stored : ∀ n r, g.reverse[n]? = some r → t.rest (v.address + n) = s.cpu.regs r
  elsewhere : ∀ a, ¬ v.Holds a → t.rest a = s.rest a
  kept : t.cpu = s.cpu ∧ u.rest = t.rest
  loaded : h.map u.cpu.regs = g.map s.cpu.regs
  others : ∀ r, r ∉ h → u.cpu.regs r = s.cpu.regs r

theorem roundTrip (hstop : v.stop ≤ UInt32.size) (hh : h.Nodup)
    (hstore : (Selection.assign (.var v) (.ofRegisters g)).Gives is)
    (hload : (Selection.assign (.ofRegisters h) (.var v)).Gives js) (s : State Ram) :
    ∃ t u, run is s = some t ∧ run js t = some u ∧ RoundTrip v g h s t u := by
  obtain ⟨harray, hgsize, -⟩ := Selection.gives_store.mp hstore
  obtain ⟨hhsize, -⟩ := (Selection.gives_load harray).mp hload
  obtain ⟨t, ht, htcpu, hstored, helsewhere⟩ := run_store hstop hstore s
  obtain ⟨u, hu, huram, hloaded, hothers⟩ := run_load harray hstop hh hload t
  have hwidth : g.length = v.extent := by rw [Variable.extent_scalar harray, hgsize]
  refine ⟨t, u, ht, hu, hwidth, hstored, helsewhere, ⟨htcpu, huram⟩, ?_, fun r hr => ?_⟩
  · rw [← List.reverse_inj, ← List.map_reverse, ← List.map_reverse]
    apply List.ext_getElem?
    intro n
    simp only [List.getElem?_map]
    cases hr : g.reverse[n]? with
    | none =>
      have hle : h.reverse.length ≤ n := by
        have := List.getElem?_eq_none_iff.mp hr
        simp only [List.length_reverse] at this ⊢
        omega
      simp [List.getElem?_eq_none hle]
    | some r =>
      obtain ⟨hn, -⟩ := List.getElem?_eq_some_iff.mp hr
      have hlt : n < h.reverse.length := by
        simp only [List.length_reverse] at hn ⊢
        omega
      have hq := List.getElem?_eq_getElem hlt
      rw [hq, Option.map_some, Option.map_some, hloaded n _ hq, hstored n r hr]
  · rw [hothers r hr, htcpu]

end Ram

/-- An assignment at this place comes to these instructions. -/
def Scope.Assigns (s : Scope) (p : Progress) (target value : Value) (is : List Instruction) :
    Prop :=
  ∃ expand l te ve q, ((s.names p.aliases).resolve te).outcome = .ok target ∧
    ((s.names p.aliases).resolve ve).outcome = .ok value ∧
    (s.lower expand l (.expr (.assign .set te ve)) p).Yields (is.map fun i => .instruction ⟨l, i⟩)
      ((), q)

theorem Scope.Assigns.gives {s : Scope} {p : Progress} {target value : Value}
    {is : List Instruction} (h : s.Assigns p target value is) :
    ∃ js, (Selection.assign target value).Gives js ∧ is = js.map (·.withComment s.comment) := by
  obtain ⟨expand, l, te, ve, q, ht, hv, h⟩ := h
  simp only [Scope.lower, Scope.expression, Trace.yields_bind_state, Scope.yields_resolve] at h
  obtain ⟨t, _, _, _, ⟨rfl, ht', rfl⟩, ⟨v, _, _, _, ⟨rfl, hv', rfl⟩, h, rfl⟩, hes⟩ := h
  obtain rfl : target = t := Except.ok.inj (ht.symm.trans ht')
  obtain rfl : value = v := Except.ok.inj (hv.symm.trans hv')
  obtain ⟨⟨js, hjs, rfl⟩, rfl⟩ := Scope.yields_place.mp h
  refine ⟨js, hjs, ?_⟩
  have hinjective : Function.Injective fun i : Instruction => Emission.instruction ⟨l, i⟩ := by
    intro i j hij
    cases hij
    rfl
  apply List.map_injective_iff.mpr hinjective
  simpa [Function.comp_def] using hes

/-- Variables are cells of their own, as long as no size overflows. Each declaration has its
variable in RAM, with as many bytes as it asks for; an index that is accepted is that of one of its
bytes, and variables lie apart if no `org` stands before them. What is stored to a variable from
registers is what is loaded from it, its low byte being at the lowest address, and no other variable
changes. -/
theorem variables_are_cells (device : Device) (program : Program) (outputs : Outputs) (c : Compiled)
    (hcompile : compile device program outputs = .ok c)
    (hwords : program.FitsWords device outputs.linksExternals) :
    let vs := program.vars device outputs.linksExternals
    let start : Build := { globals := { device }, links := outputs.linksExternals }
    vs.length = (program.items.filterMap (·.value.var?)).length ∧
      (∀ pre i post decl, program.items = pre ++ i :: post → i.value = .var decl →
        ∃ before b v, (Build.through program pre start).Yields before ((), b) ∧
          vs[(pre.filterMap (·.value.var?)).length]? = some v ∧ decl.Declares b.names v) ∧
      (vs.map (·.name)).Nodup ∧ (∀ v ∈ vs, v.Within device) ∧
      (∀ (n : Names) (l : Location) (base index : Located Expr) (a : Nat), n.globals.vars ⊆ vs →
        (n.resolve ⟨l, .index base index⟩).outcome = .ok (.cell a) →
        ∃ v ∈ vs, ∃ k, (n.resolve base).outcome = .ok (.var v) ∧
          (n.resolve index).outcome = .ok (.const k) ∧ 0 ≤ k ∧
          a = v.address + k.toNatClampNeg ∧ v.Holds a) ∧
      (∀ v ∈ vs, ∀ rs : List Reg, v.isArray = false → v.extent = rs.length → v.stop ≤ 0x10000 →
        (∃ is, (Selection.assign (.var v) (.ofRegisters rs)).Gives is) ∧
          ∃ is, (Selection.assign (.ofRegisters rs) (.var v)).Gives is) ∧
      (program.LeavesRam → vs.Pairwise Variable.Apart ∧
        ∀ (s : Scope) (p q : Progress) (v : Variable) (g h : List Reg) (is js : List Instruction)
          (x : State Ram), s.globals.vars ⊆ vs →
          s.Assigns p (.var v) (.ofRegisters g) is → s.Assigns q (.ofRegisters h) (.var v) js →
          h.Nodup →
          ∃ y z, Ram.run is x = some y ∧ Ram.run js y = some z ∧ Ram.RoundTrip v g h x y z ∧
            ∀ w ∈ vs, w ≠ v → ∀ a, w.Holds a → z.rest a = x.rest a) := by
  intro vs start
  obtain ⟨hcount, hdecls⟩ := compile_declarations hcompile
  obtain ⟨hnames, hwithin, hapart⟩ := compile_variables hcompile hwords
  refine ⟨hcount, hdecls, hnames, hwithin, ?_, ?_, fun hfree => ⟨hapart hfree, ?_⟩⟩
  · intro n l base index a hvars hcell
    obtain ⟨v, k, hbase, hindex, hk, hsize, rfl⟩ := Names.eval_index_cell ⟨rfl, hcell⟩
    have hv : v ∈ vs := hvars (Names.mem_vars_of_resolve hbase)
    obtain ⟨haddress, hholds⟩ := Variable.holds_add (hwords.vars v hv) hsize
    rw [haddress]
    exact ⟨v, hv, k, hbase, hindex, hk, rfl, hholds⟩
  · intro v _ rs harray hsize hstop
    exact Selection.exists_gives_store_load harray hsize hstop
  · intro s p q v g h is js x hvars hstore hload hh
    have hv : v ∈ vs := by
      obtain ⟨_, _, _, _, _, hresolve, -⟩ := hstore
      exact hvars (Names.mem_vars_of_resolve hresolve)
    obtain ⟨is, his, rfl⟩ := hstore.gives
    obtain ⟨js, hjs, rfl⟩ := hload.gives
    obtain ⟨y, z, hy, hz, htrip⟩ := Ram.roundTrip (hwords.vars v hv).le hh his hjs x
    refine ⟨y, z, by rwa [Ram.run_withComment], by rwa [Ram.run_withComment], htrip, ?_⟩
    intro w hw hne a ha
    have : Std.Symm Variable.Apart := ⟨fun _ _ => .symm⟩
    have hwv : w.Apart v := (hapart hfree).forall hw hv hne
    rw [htrip.kept.2]
    exact htrip.elsewhere a (hwv.not_holds ha)

namespace CellSample

open Sample

def group (high low : String) : Located Expr :=
  at1 (.group [at1 (.ident high), at1 (.ident low)])

/-- `level = r17:r16` -/
def storing : Stmt := .expr (.assign .set (at1 (.ident "level")) (group "r17" "r16"))

/-- `r19:r18 = level` -/
def loading : Stmt := .expr (.assign .set (group "r19" "r18") (at1 (.ident "level")))

def main : Procedure where
  name := at1 "main"
  params := []
  body := [at1 storing, at1 loading]
  inline := false

def program : Program where
  vectors := none
  items := [at1 (.var ⟨at1 "level", .word, none⟩),
    at1 (.var ⟨at1 "table", .byte, some (at1 (.number 100))⟩),
    at1 (.var ⟨at1 "flag", .byte, none⟩), at1 (.procedure main)]

def level : Variable := ⟨"level", 96, .word, none⟩

def table : Variable := ⟨"table", 98, .byte, some 100⟩

def flag : Variable := ⟨"flag", 198, .byte, none⟩

def scope : Scope where
  globals := { device := sampleDevice, procedures := [main], vars := [flag, table, level] }
  procedure := some main

def stores : List Instruction :=
  [⟨.sts, [.number 97, .reg ⟨17⟩], none⟩, ⟨.sts, [.number 96, .reg ⟨16⟩], none⟩]

def loads : List Instruction :=
  [⟨.lds, [.reg ⟨19⟩, .number 97], none⟩, ⟨.lds, [.reg ⟨18⟩, .number 96], none⟩]

theorem compile_isOk : (compile sampleDevice program (.ofFormats [.hex] {})).toOption.isSome := by
  decide +kernel

theorem program_vars : program.vars sampleDevice false = [level, table, flag] := by
  decide +kernel

theorem fitsWords : program.FitsWords sampleDevice false := by
  refine ⟨by decide, ?_⟩
  rw [program_vars]
  simp only [List.mem_cons, List.not_mem_nil, or_false]
  rintro v (rfl | rfl | rfl) <;> decide

theorem assigns_stores :
    scope.Assigns {} (.var level) (.ofRegisters [⟨17⟩, ⟨16⟩]) stores := by
  refine ⟨Scope.expandUpTo 1, .point "a" 1 1, at1 (.ident "level"), group "r17" "r16", {}, ?_⟩
  with_unfolding_all exact ⟨rfl, rfl, rfl, rfl⟩

theorem assigns_loads :
    scope.Assigns {} (.ofRegisters [⟨19⟩, ⟨18⟩]) (.var level) loads := by
  refine ⟨Scope.expandUpTo 1, .point "a" 1 1, group "r19" "r18", at1 (.ident "level"), {}, ?_⟩
  with_unfolding_all exact ⟨rfl, rfl, rfl, rfl⟩

end CellSample

open CellSample in
theorem variables_are_cells_word :
    ∃ c, compile sampleDevice CellSample.program (.ofFormats [.hex] {}) = .ok c ∧
      CellSample.program.FitsWords sampleDevice false ∧
      ∀ x, ∃ y z, Ram.run stores x = some y ∧ Ram.run loads y = some z ∧
        Ram.RoundTrip level [⟨17⟩, ⟨16⟩] [⟨19⟩, ⟨18⟩] x y z ∧
        ∀ a, table.Holds a ∨ flag.Holds a → z.rest a = x.rest a := by
  obtain ⟨c, hc⟩ := Option.isSome_iff_exists.mp compile_isOk
  have hc : compile sampleDevice CellSample.program (.ofFormats [.hex] {}) = .ok c :=
    Outcome.eq_ok_of_toOption hc
  refine ⟨c, hc, fitsWords, fun x => ?_⟩
  obtain ⟨-, -, -, -, -, -, hapart⟩ := variables_are_cells _ _ _ c hc fitsWords
  have hvars : CellSample.program.vars sampleDevice
      (Outputs.ofFormats [.hex] {}).linksExternals = [level, table, flag] := program_vars
  rw [hvars] at hapart
  have hfree : CellSample.program.LeavesRam := by
    unfold Program.LeavesRam Allocation.Free CellSample.program
    simp [Sample.at1, Sample.onLine, Item.isDirective]
  obtain ⟨y, z, hy, hz, htrip, hother⟩ := (hapart hfree).2 scope {} {} level [⟨17⟩, ⟨16⟩]
    [⟨19⟩, ⟨18⟩] stores loads x (by simp [scope]) assigns_stores assigns_loads (by decide)
  refine ⟨y, z, hy, hz, htrip, ?_⟩
  rintro a (ha | ha)
  · exact hother table (by simp) (by decide) a ha
  · exact hother flag (by simp) (by decide) a ha

end Avr
