import Mathlib.Data.List.Nodup
import Avr.Proofs.Assignment
import Avr.Proofs.Conditions
import Avr.Proofs.Readings

namespace Avr

open Cpu

theorem Cpu.run_withComment (c : Option String) (is : List Instruction) (s : Cpu) :
    run (is.map (Instruction.withComment c)) s = run is s := by
  rw [run, List.foldlM_map]
  rfl

namespace Emission

def instruction? : Emission → Option Instruction
  | instruction i => some i.value
  | _ => none

/-- The instructions among what is emitted. -/
def instructions (es : List Emission) : List Instruction := es.filterMap instruction?

theorem instructions_append (es fs : List Emission) :
    instructions (es ++ fs) = instructions es ++ instructions fs :=
  List.filterMap_append

theorem instructions_ofCode (c : Option String) (l : Location) (is : List Instruction) :
    instructions (ofCode c l is) = is.map (Instruction.withComment c) := by
  simp only [instructions, ofCode, List.filterMap_map, Function.comp_def, instruction?,
    List.filterMap_eq_map']

end Emission

/-- The register that an expression stands for, if it stands for one. -/
def Names.registerOf? (n : Names) (e : Located Expr) : Option Reg :=
  match (n.resolve e).outcome with
  | .ok (.reg r) => some r
  | _ => none

/-- The parameter that an argument goes to. -/
def Procedure.formal? (p : Procedure) (arg : Argument Expr) : Option Param :=
  match arg.name, p.params with
  | some name, _ => p.param? name
  | none, [param] => some param
  | none, _ => none

namespace Scope

/-- The register of the parameter that an argument goes to, and the register that is passed. -/
def passes? (s : Scope) (aliases : Aliases) (p : Procedure) (arg : Argument Expr) :
    Option (Reg × Reg) := do
  let param ← p.formal? arg
  return (← (s.names aliases).registerOf? param.binding, ← (s.names aliases).registerOf? arg.value)

/-- Moves one argument into the register of its parameter. -/
def bindArgument (s : Scope) (p : Procedure) (call : Call Expr) (l : Location)
    (arg : Argument Expr) : Lowering Unit := do
  let param ← parameter p call l arg
  let target ← s.resolve param.binding
  let value ← s.resolve arg.value
  s.place arg.value.location (Selection.assign target value)

theorem bindArguments_eq (s : Scope) (p : Procedure) (call : Call Expr) (l : Location) :
    s.bindArguments p call l = (do
      Trace.require l (.argumentCount p.params.length call.args.length)
        (call.args.length ≤ p.params.length)
      call.args.forM (s.bindArgument p call l)) := rfl

end Scope

theorem Names.registerOf_some {n : Names} {e : Located Expr} {r : Reg} :
    n.registerOf? e = some r ↔ (n.resolve e).outcome = .ok (.reg r) := by
  unfold registerOf?
  split
  · next q hq => simp [hq]
  · next hne => simpa using fun h => hne r h

namespace Procedure

variable {p : Procedure} {arg : Argument Expr} {param : Param}

theorem mem_of_formal (h : p.formal? arg = some param) : param ∈ p.params := by
  unfold formal? at h
  split at h
  · exact List.mem_of_find?_eq_some h
  · next hp =>
    cases h
    simp [hp]
  · cases h

theorem yields_parameter (h : p.formal? arg = some param) (call : Call Expr) (l : Location) :
    (Scope.parameter p call l arg).Yields [] param := by
  obtain ⟨name, value⟩ := arg
  obtain ⟨title, params, body, inline⟩ := p
  cases name with
  | some name => exact Trace.yields_get.mpr ⟨rfl, h⟩
  | none =>
    rcases params with - | ⟨q, - | ⟨q', rest⟩⟩
    · cases h
    · cases h
      exact Trace.yields_pure.mpr ⟨rfl, rfl⟩
    · cases h

end Procedure

namespace Scope

open Trace Selection

variable {s : Scope} {p : Procedure} {st : Progress}

theorem passes_some {aliases : Aliases} {arg : Argument Expr} {x : Reg × Reg} :
    s.passes? aliases p arg = some x ↔ ∃ param, p.formal? arg = some param ∧
      (s.names aliases).registerOf? param.binding = some x.1 ∧
      (s.names aliases).registerOf? arg.value = some x.2 := by
  obtain ⟨d, r⟩ := x
  simp [passes?, Option.bind_eq_some_iff]

theorem yields_bindArgument {arg : Argument Expr} {x : Reg × Reg}
    (h : s.passes? st.aliases p arg = some x) (call : Call Expr) (l : Location)
    {is : List Instruction} (his : (copyReg x.1 x.2).Gives is) :
    (s.bindArgument p call l arg st).Yields
      (Emission.ofCode s.comment arg.value.location is) ((), st) := by
  obtain ⟨param, hformal, htarget, hvalue⟩ := passes_some.mp h
  have hparam := Procedure.yields_parameter hformal call l
  rw [Names.registerOf_some] at htarget hvalue
  refine yields_bind_state.mpr ⟨param, st, [], _, yields_lift.mpr ⟨hparam, rfl⟩, ?_, rfl⟩
  refine yields_bind_state.mpr ⟨_, st, [], _, yields_resolve.mpr ⟨rfl, htarget, rfl⟩, ?_, rfl⟩
  refine yields_bind_state.mpr ⟨_, st, [], _, yields_resolve.mpr ⟨rfl, hvalue, rfl⟩, ?_, rfl⟩
  exact yields_place.mpr ⟨⟨is, his, rfl⟩, rfl⟩

theorem exists_gives_copyReg (d r : Reg) : ∃ is, (copyReg d r).Gives is := by
  unfold copyReg
  split
  · exact ⟨[], _, rfl, rfl⟩
  · exact ⟨_, gives_onRegs rfl d r⟩

/-- Every argument has its move, in the order of the arguments. -/
theorem yields_bindEach {args : List (Argument Expr)} {xs : List (Reg × Reg)}
    (h : args.map (s.passes? st.aliases p) = xs.map some) (call : Call Expr) (l : Location) :
    ∃ es is, (args.forM (s.bindArgument p call l) st).Yields es ((), st) ∧
      (Selection.sequence (xs.map fun x => copyReg x.1 x.2)).Gives is ∧
      Emission.instructions es = is.map (Instruction.withComment s.comment) := by
  induction args generalizing xs with
  | nil =>
    obtain rfl : xs = [] := by simpa using h.symm
    exact ⟨[], [], yields_forM_nil.mpr ⟨rfl, rfl⟩, gives_sequence_nil.mpr rfl, rfl⟩
  | cons arg args ih =>
    obtain ⟨x, xs, rfl, hx, hxs⟩ := List.map_eq_cons_iff.mp h.symm
    obtain ⟨js, hjs⟩ := exists_gives_copyReg x.1 x.2
    obtain ⟨es, is, hes, his, hinstructions⟩ := ih hxs.symm
    refine ⟨_, js ++ is, yields_forM_cons.mpr
      ⟨st, _, es, yields_bindArgument hx.symm call l hjs, hes, rfl⟩,
      gives_sequence_cons.mpr ⟨js, is, hjs, his, rfl⟩, ?_⟩
    rw [Emission.instructions_append, Emission.instructions_ofCode, hinstructions, List.map_append]

/-- Arguments for different registers are not more than there are parameters. -/
theorem length_args_le {args : List (Argument Expr)} {xs : List (Reg × Reg)}
    (h : args.map (s.passes? st.aliases p) = xs.map some) (hd : (xs.map Prod.fst).Nodup) :
    args.length ≤ p.params.length := by
  have hsubset : xs.map Prod.fst ⊆
      p.params.filterMap fun q => (s.names st.aliases).registerOf? q.binding := by
    intro r hr
    obtain ⟨x, hx, rfl⟩ := List.mem_map.mp hr
    have hmem : some x ∈ args.map (s.passes? st.aliases p) := h ▸ List.mem_map_of_mem hx
    obtain ⟨arg, -, harg⟩ := List.mem_map.mp hmem
    obtain ⟨param, hformal, htarget, -⟩ := passes_some.mp harg
    exact List.mem_filterMap.mpr ⟨param, Procedure.mem_of_formal hformal, htarget⟩
  calc args.length = (xs.map Prod.fst).length := by simpa using congrArg List.length h
    _ ≤ _ := hd.length_le_of_subset hsubset
    _ ≤ p.params.length := List.length_filterMap_le _ _

end Scope

namespace Cpu

/-- Each register holds its own number. -/
def numbered : Cpu := ⟨fun r => BitVec.ofNat 8 r.number, {}⟩

theorem numbered_inj {r q : Reg} (h : numbered.regs r = numbered.regs q) : r = q := by
  have hr : r.number < 32 := r.index.isLt
  have hq : q.number < 32 := q.index.isLt
  have h := congrArg BitVec.toNat h
  simp only [numbered, BitVec.toNat_ofNat] at h
  exact Reg.number_inj (by omega)

end Cpu

namespace Selection

/-- Moves that follow each other in every state are those that read no register that an earlier one
has changed. -/
theorem follows_copies_iff {xs : List (Reg × Reg)} :
    (∀ s, xs.Pairwise (Follows Prod.fst Prod.snd (fun _ b => b) s)) ↔
      xs.Pairwise fun x y => y.2 = x.1 → x.2 = x.1 := by
  constructor
  · intro h
    -- One state is enough: where no two registers hold the same, a value tells where it is from.
    exact (h numbered).imp fun hxy he => (numbered_inj (hxy he)).trans he
  · intro h s
    exact h.imp fun {x y} hxy he => by rw [hxy he, ← he]

end Selection

namespace Scope

open Trace Selection

/-- A call that passes registers to parameters in other registers, no two of these being the same,
is accepted, and its code changes none but the registers of these parameters. Each of them holds in
the end what its argument held at first, whatever that was, exactly if no argument is the register
of a parameter that is moved to before it, unless that move changes nothing. -/
theorem arguments_arrive_iff (s : Scope) (st : Progress) (p : Procedure) (call : Call Expr)
    (l : Location) (xs : List (Reg × Reg))
    (hpass : call.args.map (s.passes? st.aliases p) = xs.map some)
    (hdistinct : (xs.map Prod.fst).Nodup) :
    ∃ es, (s.bindArguments p call l st).Yields es ((), st) ∧
      (∀ cpu, ∃ t, run (Emission.instructions es) cpu = some t ∧
        ∀ r, r ∉ xs.map Prod.fst → t.regs r = cpu.regs r) ∧
      ((∀ cpu t, run (Emission.instructions es) cpu = some t →
          ∀ x ∈ xs, t.regs x.1 = cpu.regs x.2) ↔
        xs.Pairwise fun x y => y.2 = x.1 → x.2 = x.1) := by
  obtain ⟨es, is, hes, his, hinstructions⟩ := yields_bindEach hpass call l
  have hends (cpu : Cpu) := ends_combine Prod.fst Prod.snd (fun _ b => b)
    (fun x _ is hi s => (computes_copyReg hi s).imp fun t ht => by simpa using ht) hdistinct his cpu
  refine ⟨es, ?_, ?_, ?_⟩
  · rw [bindArguments_eq]
    refine yields_bind_state.mpr ⟨(), st, [], es, yields_lift.mpr ⟨?_, rfl⟩, hes, rfl⟩
    exact yields_require.mpr ⟨rfl, length_args_le hpass hdistinct⟩
  · intro cpu
    obtain ⟨t, hr, -, ho⟩ := hends cpu
    exact ⟨t, by rw [hinstructions, run_withComment, hr], ho⟩
  · rw [← follows_copies_iff]
    refine forall_congr' fun cpu => ?_
    obtain ⟨t, hr, hread, -⟩ := hends cpu
    rw [hinstructions, run_withComment, hr]
    simpa using combined_iff (fun _ b => b) hread

end Scope

namespace ArgumentSample

open Sample

/-- Takes `a` in `r16` and `b` in `r17`. -/
def pair : Procedure where
  name := at1 "pair"
  params := [⟨"a", at1 (.ident "r16")⟩, ⟨"b", at1 (.ident "r17")⟩]
  body := []
  inline := true

/-- `pair(a = r20, b = r16)` -/
def call : Call Expr where
  name := at1 "pair"
  args := [⟨some "a", at1 (.ident "r20")⟩, ⟨some "b", at1 (.ident "r16")⟩]

def scope : Scope where
  globals := { device := ⟨"sample", 8192, 96, 1024, 0, [], []⟩, procedures := [pair] }

def passed : List (Reg × Reg) := [(⟨16⟩, ⟨20⟩), (⟨17⟩, ⟨16⟩)]

theorem args_pass : call.args.map (scope.passes? [] pair) = passed.map some := by
  decide +kernel

end ArgumentSample

open ArgumentSample in
theorem Scope.arguments_arrive_iff_overlapping :
    ∃ es, (scope.bindArguments pair call (.point "a" 1 1) {}).Yields es ((), {}) ∧
      ¬ ∀ cpu t, run (Emission.instructions es) cpu = some t →
        ∀ x ∈ passed, t.regs x.1 = cpu.regs x.2 := by
  obtain ⟨es, hes, -, hiff⟩ := Scope.arguments_arrive_iff scope {} pair call (.point "a" 1 1)
    passed args_pass (by decide)
  exact ⟨es, hes, fun h => absurd (hiff.mp h) (by decide)⟩

end Avr
