import Avr.Proofs.Assignment
import Avr.Proofs.ContinueTargets

namespace Avr

/-- A machine by what it does from one instruction to the next. -/
abbrev Processor (μ : Type) := Config μ → Option (Config μ)

namespace Processor

variable (next : Processor μ)

/-- So many steps. -/
def run : Nat → Config μ → Option (Config μ)
  | 0, c => some c
  | n + 1, c => (next c).bind (run n)

/-- Does what these lines say, wherever their instructions are known. -/
def Obeys (m : Machine μ) : Prop := ∀ c d, m.step c = some d → next c = some d

/-- From `first` the machine comes to `last`, for the first time. -/
def Passes (first last : Nat) (s t : State μ) : Prop :=
  ∃ n, next.run n ⟨first, s⟩ = some ⟨last, t⟩ ∧
    ∀ k < n, ∀ c, next.run k ⟨first, s⟩ = some c → c.pc ≠ last

end Processor

/-- Alike but for these registers and the flags. -/
def State.AlikeBut (rs : List Reg) (s t : State μ) : Prop :=
  t.rest = s.rest ∧ ∀ r, r ∉ rs → t.cpu.regs r = s.cpu.regs r

/-- So many passes through the body, which lies from `first` to `last`. After each one, two steps
lead back to the body, and after the last one out of the loop; they change nothing but the counter
and the flags. -/
inductive Processor.Rounds (next : Processor μ) (counter : List Reg) (first last out : Nat) :
    Nat → State μ → State μ → Prop
  | last {s t u : State μ} (body : next.Passes first last s t)
      (update : next.run 2 ⟨last, t⟩ = some ⟨out, u⟩) (frame : t.AlikeBut counter u) :
      Rounds next counter first last out 1 s u
  | again {n : Nat} {s t u v : State μ} (body : next.Passes first last s t)
      (update : next.run 2 ⟨last, t⟩ = some ⟨first, u⟩) (frame : t.AlikeBut counter u)
      (rest : Rounds next counter first last out n u v) :
      Rounds next counter first last out (n + 1) s v

/-- Instructions on registers, and no others. -/
def Effect.onRegisters : Effect μ := fun m operands s =>
  (s.cpu.exec { mnemonic := m, operands }).map fun cpu => { s with cpu }

namespace Processor

variable {next : Processor μ} {m : Machine μ}

theorem Obeys.run (h : next.Obeys m) {n : Nat} {c d : Config μ} (hrun : m.run n c = some d) :
    next.run n c = some d := by
  induction n generalizing c with
  | zero => exact hrun
  | succ n ih =>
    obtain ⟨e, he, hrun⟩ := Option.bind_eq_some_iff.mp hrun
    rw [Processor.run, h c e he]
    exact ih hrun

end Processor

namespace Cpu

/-- An instruction on registers goes straight on and has no symbols in it. -/
theorem isStraight_of_exec {i : Instruction} {s t : Cpu} (h : s.exec i = some t) :
    i.mnemonic.isStraight ∧ ∀ o ∈ i.operands, o.isSymbolic = false := by
  obtain ⟨m, operands, comment⟩ := i
  have hreg {d : Reg} (h : s.execReg d m = some t) : m.isStraight := by
    unfold execReg at h
    split at h <;> first | rfl | cases h
  have hpairs {d r : Pair} (h : s.execPairs d r m = some t) : m.isStraight := by
    unfold execPairs at h
    split at h <;> first | rfl | cases h
  have hregs {d r : Reg} (h : s.execRegs d r m = some t) : m.isStraight := by
    unfold execRegs at h
    split at h
    case h_9 =>
      obtain ⟨_, _, h⟩ := Option.bind_eq_some_iff.mp h
      obtain ⟨_, _, h⟩ := Option.bind_eq_some_iff.mp h
      exact hpairs h
    all_goals rfl
  have hpair {d : Pair} {k : Int} (h : s.execPair d k m = some t) : m.isStraight := by
    unfold execPair at h
    split at h <;> first | rfl | cases h
  have hnumber {d : Reg} {k : Int} (h : s.execNumber d k m = some t) : m.isStraight := by
    unfold execNumber at h
    split at h
    case h_6 =>
      obtain ⟨_, _, h⟩ := Option.bind_eq_some_iff.mp h
      exact hpair h
    all_goals rfl
  unfold exec at h
  split at h
  · next ho =>
    subst ho
    exact ⟨hreg h, by simp [Operand.isSymbolic]⟩
  · next ho =>
    subst ho
    exact ⟨hregs h, by simp [Operand.isSymbolic]⟩
  · next ho =>
    subst ho
    exact ⟨hpairs h, by simp [Operand.isSymbolic]⟩
  · next ho =>
    subst ho
    exact ⟨hnumber h, by simp [Operand.isSymbolic]⟩
  · next ho =>
    subst ho
    exact ⟨hpair h, by simp [Operand.isSymbolic]⟩
  · cases h

/-- Comparisons apart, which change no register. -/
theorem perform_of_exec {i : Instruction} {s : State μ} {t : Cpu} (h : s.cpu.exec i = some t) :
    i.perform .onRegisters s = some { s with cpu := t } := by
  obtain ⟨m, operands, comment⟩ := i
  unfold Instruction.perform
  split
  · next hm ho =>
    subst hm ho
    simp [exec, execRegs, execPairs] at h
  · next hm ho =>
    subst hm ho
    simp [exec, execRegs, execPairs] at h
  · next hm ho =>
    subst hm ho
    simp [exec, execReg] at h
  · change s.cpu.exec { mnemonic := m, operands } = some t at h
    simp [Effect.onRegisters, h]

/-- The same of instructions one after the other. -/
theorem performAll_of_run {is : List Instruction} {s : State μ} {t : Cpu}
    (h : run is s.cpu = some t) :
    (∀ i ∈ is, i.mnemonic.isStraight ∧ ∀ o ∈ i.operands, o.isSymbolic = false) ∧
      is.foldlM (fun s i => i.perform .onRegisters s) s = some { s with cpu := t } := by
  induction is generalizing s with
  | nil =>
    cases h
    exact ⟨by simp, rfl⟩
  | cons i is ih =>
    rw [run, List.foldlM_cons] at h
    obtain ⟨u, hu, h⟩ := Option.bind_eq_some_iff.mp h
    obtain ⟨his, hrest⟩ := ih (s := { s with cpu := u }) h
    refine ⟨?_, ?_⟩
    · rw [List.forall_mem_cons]
      exact ⟨isStraight_of_exec hu, his⟩
    · rw [List.foldlM_cons, perform_of_exec hu]
      exact hrest

end Cpu

/-- Code on registers runs from its start to its end. -/
theorem Flash.run_cpu {m : Flash μ} (hm : m.effect = .onRegisters) {a : Nat} {c : Option String}
    {l : Location} {is : List Instruction} (hload : m.Loaded a (Emission.ofCode c l is))
    {s : State μ} {t : Cpu} (h : Cpu.run is s.cpu = some t) :
    m.run is.length ⟨a, s⟩ =
      some ⟨a + Emission.sizes (Emission.ofCode c l is), { s with cpu := t }⟩ := by
  obtain ⟨his, hrun⟩ := Cpu.performAll_of_run h
  rw [← hm] at hrun
  exact run_straight hload (fun i hi => (his i hi).2) (fun i hi => (his i hi).1) hrun

namespace Counter

/-- The registers that are counted in, the high one first. -/
inductive CountsIn : Counter → List Reg → Prop
  | reg (r : Reg) : CountsIn (.reg r) [r]
  | pair (p : Pair) : CountsIn (.pair p) [p.high, p.low]

theorem CountsIn.target {counter : Counter} {rs : List Reg} (h : counter.CountsIn rs) :
    (rs ≠ [] ∧ rs.length ≤ 4) ∧ rs.Nodup := by
  cases h with
  | reg r => simp
  | pair p => simp [p.high_ne_low]

/-- A value that can be counted in has a counter and a number of rounds in a full turn. -/
theorem countsIn_of_yields {l : Location} {rs : List Reg} {limit : Int32} {counter : Counter}
    {es : List Emission} (hlimit : limit? (.ofRegisters rs) = some limit)
    (h : (ofValue l (.ofRegisters rs)).Yields es counter) :
    es = [] ∧ counter.CountsIn rs ∧ limit.toNatClampNeg = 256 ^ rs.length := by
  match rs with
  | [r] =>
    obtain ⟨rfl, rfl⟩ := Trace.yields_pure.mp h
    cases hlimit
    exact ⟨rfl, .reg r, (by decide : Int32.toNatClampNeg 0x100 = 256 ^ 1)⟩
  | [] => cases hlimit
  | q :: r :: rs =>
    simp only [Value.ofRegisters, ofValue, Trace.yields_bind, Trace.yields_get,
      Trace.yields_pure] at h
    obtain ⟨p, _, _, ⟨rfl, hp⟩, ⟨rfl, rfl⟩, rfl⟩ := h
    obtain ⟨hpair, -⟩ := Option.filter_eq_some_iff.mp hp
    simp only [limit?, Value.ofRegisters, hp, Option.map_some, Option.some.injEq] at hlimit
    rw [Pair.ofList_some hpair, ← hlimit]
    exact ⟨rfl, .pair p, (by decide : Int32.toNatClampNeg 0x10000 = 256 ^ 2)⟩

theorem toNat_pred {n : Nat} (b : BitVec n) (hn : 0 < n) :
    (b - 1#n).toNat = (b.toNat + (2 ^ n - 1)) % 2 ^ n := by
  have hone : 1 % 2 ^ n = 1 := Nat.mod_eq_of_lt (Nat.one_lt_two_pow (by omega))
  rw [BitVec.toNat_sub, BitVec.toNat_ofNat, hone, Nat.add_comm]

/-- The counter is stepped down, whereupon the flag says whether it is zero. -/
theorem CountsIn.update {counter : Counter} {rs : List Reg} {start : LabelRef}
    {is : List Instruction} (hrs : counter.CountsIn rs) (h : (counter.update start).Gives is) :
    ∃ i, is = [i, { mnemonic := .brne, operands := [.label start] }] ∧
      ∀ s : Cpu, ∃ t, s.exec i = some t ∧
        t.number rs = (s.number rs + (256 ^ rs.length - 1)) % 256 ^ rs.length ∧
        t.status.zero = decide (t.number rs = 0) ∧ ∀ r, r ∉ rs → t.regs r = s.regs r := by
  cases hrs with
  | reg r =>
    obtain ⟨js, _, hj, hk, rfl⟩ := Selection.gives_sequence_cons.mp h
    obtain rfl := Selection.gives_emit hj
    obtain rfl := Selection.gives_emit (Selection.gives_sequence_one.mp hk)
    refine ⟨_, rfl, fun s => ⟨s.decrement r, rfl, ?_⟩⟩
    have hnumber (s : Cpu) : s.number [r] = (s.regs r).toNat := by simp [Cpu.number]
    have hstep : (s.decrement r).regs r = s.regs r - 1 := by simp [Cpu.decrement]
    rw [hnumber, hnumber, hstep]
    refine ⟨toNat_pred (s.regs r) (by decide), ?_, ?_⟩
    · simp [Cpu.decrement, Status.result, BitVec.toNat_eq]
    · intro q hq
      simp [Cpu.decrement, List.mem_singleton.not.mp hq]
  | pair p =>
    obtain ⟨js, _, hj, hk, rfl⟩ := Selection.gives_sequence_cons.mp h
    obtain rfl := Selection.gives_emit hj
    obtain rfl := Selection.gives_emit (Selection.gives_sequence_one.mp hk)
    refine ⟨_, rfl, fun s => ⟨s.subWord p 1, rfl, ?_⟩⟩
    have hnumber (s : Cpu) : s.number [p.high, p.low] = (s.word p).toNat := by
      rw [← Cpu.bits_pair]
      exact (Cpu.toNat_bits (w := 2) rfl s).symm
    have hturn : 256 ^ [p.high, p.low].length = 2 ^ 16 := by simp
    have hstep : (s.subWord p 1).word p = s.word p - 1 := Cpu.word_setWord s p _
    rw [hnumber, hnumber, hstep, hturn]
    refine ⟨toNat_pred (s.word p) (by decide), ?_, Cpu.setWord_other s p _⟩
    simp [Cpu.subWord, Status.result, BitVec.toNat_eq]

end Counter

namespace Scope

open Trace

variable {s : Scope} {p q : Progress} {es : List Emission}

theorem yields_constant {e : Located Expr} {k : Int32} :
    (s.constant e p).Yields es (k, q) ↔
      es = [] ∧ ((s.names p.aliases).constant e).outcome = .ok k ∧ p = q :=
  yields_aliases (f := fun aliases => (s.names aliases).constant e) (by simp)

/-- A counter takes every count up to a full turn, which starts at zero. -/
theorem yields_counterStart {l : Location} {limit k start : Int32}
    (h : (counterStart l limit k).Yields es start) :
    es = [] ∧ 0 ≤ start ∧ k.toNatClampNeg ≤ limit.toNatClampNeg ∧
      start.toNatClampNeg = k.toNatClampNeg % limit.toNatClampNeg := by
  unfold counterStart at h
  split at h
  · next hk =>
    obtain ⟨rfl, rfl⟩ := yields_pure.mp h
    rw [hk, Nat.mod_self]
    exact ⟨rfl, by decide, Nat.le_refl _, rfl⟩
  · split at h
    · next hk =>
      obtain ⟨rfl, rfl⟩ := yields_pure.mp h
      have hlt : k.toNatClampNeg < limit.toNatClampNeg := by
        have hlow := Int32.le_iff_toInt_le.mp hk.1
        have hhigh := Int32.lt_iff_toInt_lt.mp hk.2
        simp only [Int32.toInt_zero, ← Int32.toNat_toInt] at hlow hhigh ⊢
        omega
      exact ⟨rfl, hk.1, Nat.le_of_lt hlt, (Nat.mod_eq_of_lt hlt).symm⟩
    · exact absurd h not_yields_fail

/-- The counter is loaded with the count. -/
theorem yields_counter {cl : Location} {target value : Located Expr} {rs : List Reg} {k : Int32}
    {counter : Counter}
    (htarget : ((s.names p.aliases).resolve target).outcome = .ok (.ofRegisters rs))
    (hvalue : ((s.names p.aliases).constant value).outcome = .ok k)
    (h : (s.counter ⟨cl, .assign .set target value⟩ p).Yields es (counter, q)) :
    ∃ is, p = q ∧ es = Emission.ofCode s.comment cl is ∧ counter.CountsIn rs ∧
      k.toNatClampNeg ≤ 256 ^ rs.length ∧
      ∀ u : Cpu, Cpu.Ends is u fun t =>
        t.number rs = k.toNatClampNeg % 256 ^ rs.length ∧ ∀ r, r ∉ rs → t.regs r = u.regs r := by
  simp only [Scope.counter, yields_bind_state, yields_resolve, yields_constant, yields_lift,
    yields_get, yields_place] at h
  obtain ⟨v, _, _, _, ⟨rfl, hv, rfl⟩, ⟨k', _, _, _, ⟨rfl, hk, rfl⟩, ⟨limit, _, _, _,
    ⟨⟨rfl, hlimit⟩, rfl⟩, ⟨start, _, _, _, ⟨hstart, rfl⟩, ⟨_, _, _, _, ⟨⟨is, his, rfl⟩, rfl⟩,
    ⟨hcounter, rfl⟩, rfl⟩, rfl⟩, rfl⟩, rfl⟩, rfl⟩ := h
  obtain rfl := Except.ok.inj (hv.symm.trans htarget)
  obtain rfl := Except.ok.inj (hk.symm.trans hvalue)
  obtain ⟨rfl, hrs, hturn⟩ := Counter.countsIn_of_yields hlimit hcounter
  obtain ⟨rfl, hlow, hle, hmod⟩ := yields_counterStart hstart
  rw [hturn] at hle hmod
  refine ⟨is, rfl, by simp [Emission.ofCode], hrs, hle, fun u => ?_⟩
  obtain ⟨hlen, hnodup⟩ := hrs.target
  refine (Selection.computes_assign hlen hnodup rfl (by simp [Value.mentions]) his u).imp ?_
  rintro t ⟨hbits, hrest⟩
  refine ⟨?_, hrest⟩
  have hlt : start.toNatClampNeg < 2 ^ (8 * rs.length) := by
    rw [hmod, Nat.pow_mul]
    exact Nat.mod_lt _ (Nat.pow_pos (by decide))
  rw [← Cpu.toNat_bits rfl, hbits, ← hmod]
  exact toNat_constBits hlow hlt

end Scope

/-- One round of a count. -/
theorem pred_mod {n turn : Nat} (h : n + 1 ≤ turn) :
    ((n + 1) % turn + (turn - 1)) % turn = n := by
  rw [Nat.mod_add_mod, show n + 1 + (turn - 1) = n + turn by omega, Nat.add_mod_right,
    Nat.mod_eq_of_lt h]

/-- A counter that stands at the number of rounds, modulo a full turn, makes just as many. -/
theorem Processor.rounds_of_counter {next : Processor μ} {rs : List Reg} {first last out : Nat}
    (hbody : ∀ s, ∃ t, next.Passes first last s t ∧ ∀ r ∈ rs, t.cpu.regs r = s.cpu.regs r)
    (hupdate : ∀ s, ∃ t : State μ, s.AlikeBut rs t ∧
      t.cpu.number rs = (s.cpu.number rs + (256 ^ rs.length - 1)) % 256 ^ rs.length ∧
      next.run 2 ⟨last, s⟩ = some ⟨if t.cpu.number rs = 0 then out else first, t⟩)
    {n : Nat} (hn : n + 1 ≤ 256 ^ rs.length) (s : State μ)
    (hs : s.cpu.number rs = (n + 1) % 256 ^ rs.length) :
    ∃ t, next.Rounds rs first last out (n + 1) s t ∧ t.cpu.number rs = 0 := by
  induction n generalizing s with
  | zero =>
    obtain ⟨t, hpass, hkeep⟩ := hbody s
    obtain ⟨u, hframe, hnumber, hrun⟩ := hupdate t
    rw [Cpu.number_congr hkeep, hs, pred_mod hn] at hnumber
    rw [if_pos hnumber] at hrun
    exact ⟨u, .last hpass hrun hframe, hnumber⟩
  | succ n ih =>
    obtain ⟨t, hpass, hkeep⟩ := hbody s
    obtain ⟨u, hframe, hnumber, hrun⟩ := hupdate t
    rw [Cpu.number_congr hkeep, hs, pred_mod hn] at hnumber
    rw [if_neg (by omega)] at hrun
    obtain ⟨v, hrest, hzero⟩ := ih (by omega) u (by rw [hnumber, Nat.mod_eq_of_lt (by omega)])
    exact ⟨v, .again hpass hrun hframe hrest, hzero⟩

namespace Flash

variable {m : Flash μ} {a : Nat} {c : Option String} {l : Location} {name : String} {b : Nat}

/-- The update of a counter goes back to the label, or on. -/
theorem run_update (hm : m.effect = .onRegisters) {counter : Counter} {rs : List Reg}
    (hrs : counter.CountsIn rs) {is : List Instruction}
    (hgives : (counter.update (.plain name)).Gives is)
    (hload : m.Loaded a (Emission.ofCode c l is)) (ht : m.Target name b) (s : State μ) :
    ∃ t : State μ, s.AlikeBut rs t ∧
      t.cpu.number rs = (s.cpu.number rs + (256 ^ rs.length - 1)) % 256 ^ rs.length ∧
      m.run 2 ⟨a, s⟩ = some ⟨if t.cpu.number rs = 0 then
        a + Emission.sizes (Emission.ofCode c l is) else b, t⟩ := by
  obtain ⟨i, rfl, hstep⟩ := hrs.update hgives
  obtain ⟨t, hexec, hnumber, hzero, hframe⟩ := hstep s.cpu
  refine ⟨{ s with cpu := t }, ⟨rfl, hframe⟩, hnumber, ?_⟩
  have hsplit : Emission.ofCode c l [i, { mnemonic := .brne, operands := [.label (.plain name)] }] =
      Emission.ofCode c l [i] ++
        Emission.ofCode c l [{ mnemonic := .brne, operands := [.label (.plain name)] }] := rfl
  rw [hsplit] at hload ⊢
  obtain ⟨hload, hbranch⟩ := loaded_append.mp hload
  have hfirst := run_cpu hm hload (s := s) (t := t) (by simp [Cpu.run, hexec])
  obtain ⟨hb, hat, -⟩ := loaded_instruction.mp hbranch
  have hsecond := step_branch (s := { s with cpu := t }) hb hat rfl ht
  have hbit : t.status.bit 1 = decide (t.number rs = 0) := hzero
  refine Machine.run_trans hfirst (Machine.run_one (hsecond.trans ?_))
  have hsize : Emission.sizes (Emission.ofCode c l
      [{ mnemonic := .brne, operands := [.label (.plain name)] }]) = 2 := rfl
  rw [hbit, Emission.sizes_append, hsize, ← Nat.add_assoc]
  by_cases h : t.number rs = 0 <;> simp [h]

end Flash

open Trace in
/-- The parts of a loop that counts: the load, the body and the update. -/
theorem Scope.yields_countedLoop {s : Scope} {depth : Nat} {l cl : Location}
    {target value : Located Expr} {body : List (Located Stmt)} {p q : Progress} {es : List Emission}
    {rs : List Reg} {k : Int32}
    (hlower : (s.lower (Scope.expandUpTo depth) l
      (.loop (some ⟨cl, .assign .set target value⟩) body) p).Yields es ((), q))
    (hcounter : ((s.names p.aliases).resolve target).outcome = .ok (.ofRegisters rs))
    (hcount : ((s.names p.aliases).constant value).outcome = .ok k) :
    ∃ is labels code marks js counter,
      es = Emission.ofCode s.comment cl is ++ (.label ⟨l, s.generated "loop" l⟩ :: (code ++
        (marks ++ (Emission.ofCode s.comment l js ++ [.label ⟨l, labels.stop⟩])))) ∧
      ({ s with loop := some labels }.lowerAll (Scope.expandUpTo depth) body p).Yields
        code ((), q) ∧
      Emission.sizes marks = 0 ∧
      Counter.CountsIn counter rs ∧ k.toNatClampNeg ≤ 256 ^ rs.length ∧
      (∀ u : Cpu, Cpu.Ends is u fun t =>
        t.number rs = k.toNatClampNeg % 256 ^ rs.length ∧ ∀ r, r ∉ rs → t.regs r = u.regs r) ∧
      (counter.update (.plain (s.generated "loop" l))).Gives js := by
  obtain ⟨update, a, b, setup, code, round, hsetup, hcode, hround, hes⟩ :=
    yields_updatedLoop rfl hlower
  obtain ⟨counter, c, load, _, hload, hpure, rfl⟩ := yields_bind_state.mp hsetup
  obtain ⟨rfl, rfl, rfl⟩ := yields_pure_state.mp hpure
  obtain ⟨is, rfl, rfl, hrs, hle, hends⟩ := yields_counter hcounter hcount hload
  obtain ⟨⟨js, hjs, rfl⟩, rfl⟩ := Scope.yields_place.mp hround
  rw [List.append_nil] at hes
  refine ⟨is, _, code, _, js, counter, hes, hcode, ?_, hrs, hle, hends, hjs⟩
  split <;> simp

/-- What is placed runs at its place. -/
theorem Layout.Places.exists_flash {o : Layout} {linker : Bool} {start : Nat} {es : List Emission}
    {lines : List Line} (h : o.Places linker start es lines)
    (hsize : Emission.sizes es < 0x80000000) (effect : Effect μ) :
    ∃ m : Flash μ, m.toMachine = ⟨lines, effect⟩ ∧ m.Loaded start es :=
  let m : Flash μ :=
    { code := lines, effect, layout := o, linker, origin := start
      stop := start + Emission.sizes es, near := by omega }
  ⟨m, rfl, h.loaded (m := m) (List.nil_append lines).symm (by simp)
    ⟨rfl, Nat.le_refl _, Nat.le_add_right _ _⟩ (Nat.le_refl _)⟩

/-- A loop over a register or a pair makes as many rounds as its count says, whatever the body does,
as long as it comes to its end and keeps the counter; it is left with the counter at zero. -/
theorem counted_loop_rounds {μ : Type} (formats : List Format) (options : OutputOptions)
    (linker : Bool) (o : Outputs) (listing : Listing) (before es after : List Emission) (s : Scope)
    (depth : Nat) (l cl : Location) (target value : Located Expr) (body : List (Located Stmt))
    (p q : Progress) (rs : List Reg) (k : Int32) (hformats : formats ≠ [])
    (hlower : (s.lower (Scope.expandUpTo depth) l
      (.loop (some ⟨cl, .assign .set target value⟩) body) p).Yields es ((), q))
    (hemit : (Outputs.ofFormats formats options).emitAll (before ++ es ++ after) = .ok o)
    (hresolve : o.layout.resolve linker = .ok listing)
    (hcounter : ((s.names p.aliases).resolve target).outcome = .ok (.ofRegisters rs))
    (hcount : ((s.names p.aliases).constant value).outcome = .ok k) (hpos : 0 < k)
    (hsize : Emission.sizes es < 0x80000000) :
    ∃ load labels code rest start lines,
      es = load ++ (.label ⟨l, s.generated "loop" l⟩ :: (code ++ rest)) ∧
      ({ s with loop := some labels }.lowerAll (Scope.expandUpTo depth) body p).Yields
        code ((), q) ∧
      o.layout.Places linker start es lines ∧
      (∃ sec ∈ listing.sections, ∃ pre post, sec.lines = pre ++ lines ++ post) ∧
      ∀ first last out : Nat, first = start + Emission.sizes load →
        last = first + Emission.sizes code → out = start + Emission.sizes es →
        ∀ next : Processor μ, next.Obeys ⟨lines, .onRegisters⟩ →
        (∀ u, ∃ t, next.Passes first last u t ∧ ∀ r ∈ rs, t.cpu.regs r = u.cpu.regs r) →
        ∀ u, ∃ v t, next.run load.length ⟨start, u⟩ = some ⟨first, v⟩ ∧ u.AlikeBut rs v ∧
          next.Rounds rs first last out k.toNatClampNeg v t ∧ t.cpu.number rs = 0 := by
  have happly := Outputs.ofFormats_applyAll hformats hemit
  have hinPlace : ∀ e ∈ es, e.InPlace := by
    rw [← hlower.1]
    exact Scope.inPlace_lower (Scope.inPlace_expandUpTo depth) s l _ p
  obtain ⟨start, lines, hplaces, hsection⟩ := Layout.exists_places happly hinPlace hresolve
  obtain ⟨is, labels, code, marks, js, counter, hes, hcode, hmarks, hrs, hle, hends, hjs⟩ :=
    Scope.yields_countedLoop hlower hcounter hcount
  have hlines : lines ≠ [] := by
    rw [hes] at hplaces
    obtain ⟨xs, ys, -, hrest, rfl⟩ := hplaces.append
    obtain ⟨-, x, zs, -, -, rfl⟩ := hrest.label
    simp
  refine ⟨_, labels, code, _, start, lines, hes, hcode, hplaces, hsection hlines, ?_⟩
  rintro first last out hstart rfl rfl next hobeys hbody u
  obtain ⟨m, hm, hloaded⟩ := hplaces.exists_flash hsize (Effect.onRegisters (μ := μ))
  have heffect : m.effect = .onRegisters := congrArg Machine.effect hm
  rw [← hm] at hobeys
  rw [hes] at hloaded
  obtain ⟨hload, hloop⟩ := Flash.loaded_append.mp hloaded
  rw [← hstart] at hloop
  obtain ⟨htarget, hloop⟩ := Flash.loaded_label.mp hloop
  obtain ⟨-, hloop⟩ := Flash.loaded_append.mp hloop
  obtain ⟨-, hloop⟩ := Flash.loaded_append.mp hloop
  obtain ⟨hupdate, -⟩ := Flash.loaded_append.mp hloop
  rw [hmarks, Nat.add_zero] at hupdate
  have hround (x : State μ) : ∃ t : State μ, x.AlikeBut rs t ∧
      t.cpu.number rs = (x.cpu.number rs + (256 ^ rs.length - 1)) % 256 ^ rs.length ∧
      next.run 2 ⟨first + Emission.sizes code, x⟩ =
        some ⟨if t.cpu.number rs = 0 then start + Emission.sizes es else first, t⟩ := by
    obtain ⟨t, hframe, hnumber, hrun⟩ := Flash.run_update heffect hrs hjs hupdate htarget x
    refine ⟨t, hframe, hnumber, (hobeys.run hrun).trans ?_⟩
    simp [hes, hmarks, hstart, Nat.add_assoc]
  obtain ⟨n, hn⟩ : ∃ n, k.toNatClampNeg = n + 1 := by
    have hlow := Int32.lt_iff_toInt_lt.mp hpos
    rw [← Int32.toNat_toInt]
    exact ⟨k.toInt.toNat - 1, by simp at hlow; omega⟩
  rw [hn] at hends hle ⊢
  obtain ⟨c, hrun, hnumber, hframe⟩ := hends u.cpu
  have hfirst := hobeys.run (Flash.run_cpu heffect hload hrun)
  obtain ⟨t, hrounds, hzero⟩ :=
    Processor.rounds_of_counter hbody hround hle { u with cpu := c } hnumber
  refine ⟨{ u with cpu := c }, t, ?_, ⟨rfl, hframe⟩, hrounds, hzero⟩
  rwa [hstart, Emission.ofCode, List.length_map]

namespace CountSample

open Sample

def counter : Located Expr := at1 (.group [at1 (.ident "r25"), at1 (.ident "r24")])

def body : List (Located Stmt) := [at1 (.asm ⟨at1 "inc", [at1 (.ident "r17")]⟩)]

/-- `loop ([r25, r24] = 65536) { inc r17 }` -/
def statement : Stmt :=
  .loop (some (at1 (.assign .set counter (at1 (.number 65536))))) body

def main : Procedure := ⟨at1 "main", [], [at1 statement], false⟩

def scope : Scope :=
  { globals := { device := sampleDevice, procedures := [main] }, procedure := some main }

def lowered : Trace (Unit × Progress) :=
  scope.lower (Scope.expandUpTo 1) (.point "a" 1 1) statement {}

def listing : Checked Listing := do
  let o ← (Outputs.ofFormats [.hex] {}).emitAll lowered.emitted
  o.layout.resolve false

theorem lowered_outcome : lowered.outcome = .ok ((), {}) := by
  with_unfolding_all rfl

theorem lowered_size : Emission.sizes lowered.emitted = 10 := by
  decide +kernel

theorem listing_isOk : listing.isOk := by
  decide +kernel

theorem counter_outcome :
    ((scope.names []).resolve counter).outcome = .ok (.ofRegisters [⟨25⟩, ⟨24⟩]) := by
  decide +kernel

theorem count_outcome :
    ((scope.names []).constant (at1 (.number 65536))).outcome = .ok 65536 := by
  decide +kernel

theorem body_emitted (labels : LoopLabels) :
    ({ scope with loop := some labels }.lowerAll (Scope.expandUpTo 1) body {}).emitted =
      Emission.ofCode none (.point "a" 1 1) [{ mnemonic := .inc, operands := [.reg ⟨17⟩] }] := by
  with_unfolding_all rfl

def load : List Emission :=
  Emission.ofCode none (.point "a" 1 1)
    [{ mnemonic := .clr, operands := [.reg ⟨25⟩] }, { mnemonic := .clr, operands := [.reg ⟨24⟩] }]

def round : List Emission :=
  Emission.ofCode none (.point "a" 1 1) [
    { mnemonic := .inc, operands := [.reg ⟨17⟩] },
    { mnemonic := .sbiw, operands := [.pair ⟨12⟩, .number 1] },
    { mnemonic := .brne, operands := [.label (.plain "main@loop@1")] }] ++
  [.label (at1 "main@loopEnd@1")]

theorem lowered_emitted : lowered.emitted = load ++ .label (at1 "main@loop@1") :: round := by
  with_unfolding_all rfl

/-- The label of the loop stands once, behind the load. -/
theorem eq_load {before rest : List Emission}
    (h : lowered.emitted =
      before ++ .label (at1 (scope.generated "loop" (.point "a" 1 1))) :: rest) :
    before = load := by
  have hlabel : scope.generated "loop" (.point "a" 1 1) = "main@loop@1" := by
    decide +kernel
  rw [lowered_emitted, hlabel] at h
  have hsplit := (List.append_cons_inj_of_notMem (by simp [load, Emission.ofCode])
    (by simp [round, Emission.ofCode, at1, onLine])).mp h
  exact hsplit.1.symm

end CountSample

open CountSample in
/-- A full turn of a pair. -/
theorem counted_loop_rounds_full_turn :
    ∃ o listing start lines,
      (Outputs.ofFormats [.hex] {}).emitAll lowered.emitted = .ok o ∧
      o.layout.resolve false = .ok listing ∧
      (∃ sec ∈ listing.sections, ∃ pre post, sec.lines = pre ++ lines ++ post) ∧
      ∀ next : Processor Unit, next = Machine.step ⟨lines, .onRegisters⟩ →
        ∀ u, ∃ v t, next.run 2 ⟨start, u⟩ = some ⟨start + 4, v⟩ ∧
          next.Rounds [⟨25⟩, ⟨24⟩] (start + 4) (start + 6) (start + 10) 65536 v t ∧
          t.cpu.number [⟨25⟩, ⟨24⟩] = 0 := by
  obtain ⟨listing, hlisting⟩ : ∃ x, CountSample.listing = .ok x := by
    have hok := listing_isOk
    cases h : CountSample.listing with
    | ok x => exact ⟨x, rfl⟩
    | error e =>
      rw [h] at hok
      cases hok
  obtain ⟨o, hemit, hresolve⟩ := Outcome.bind_ok.mp hlisting
  obtain ⟨load, labels, code, rest, start, lines, hes, hcode, hplaces, hsection, hrounds⟩ :=
    counted_loop_rounds (μ := Unit) [.hex] {} false o listing [] lowered.emitted [] scope 1
      (.point "a" 1 1) _ _ _ _ {} {} [⟨25⟩, ⟨24⟩] 65536 (by simp) ⟨rfl, lowered_outcome⟩
      (by simpa using hemit) hresolve counter_outcome count_outcome (by decide)
      (by rw [lowered_size]; decide)
  obtain rfl := eq_load hes
  obtain rfl := hcode.1.symm.trans (body_emitted labels)
  refine ⟨o, listing, start, lines, hemit, hresolve, hsection, ?_⟩
  rintro next rfl u
  obtain ⟨m, hm, hloaded⟩ := hplaces.exists_flash (by rw [lowered_size]; decide)
    (Effect.onRegisters (μ := Unit))
  rw [hes] at hloaded
  obtain ⟨-, hloop⟩ := Flash.loaded_append.mp hloaded
  obtain ⟨-, hloop⟩ := Flash.loaded_label.mp hloop
  obtain ⟨hbody, -⟩ := Flash.loaded_append.mp hloop
  have heffect : m.effect = .onRegisters := congrArg Machine.effect hm
  have hpass (u : State Unit) :
      Processor.Passes (Machine.step ⟨lines, .onRegisters⟩) (start + 4) (start + 6) u
        { u with cpu := u.cpu.increment ⟨17⟩ } := by
    have hrun := Flash.run_cpu heffect hbody (s := u) (t := u.cpu.increment ⟨17⟩) rfl
    rw [hm] at hrun
    refine ⟨1, Processor.Obeys.run (fun _ _ h => h) hrun, ?_⟩
    intro k hk c hc
    obtain rfl : k = 0 := by omega
    cases hc
    simp
  obtain ⟨v, t, hrun, -, hrounds, hzero⟩ := hrounds (start + 4) (start + 6) (start + 10) rfl rfl
    (by rw [lowered_size]) (Machine.step ⟨lines, .onRegisters⟩) (fun _ _ h => h)
    (fun u => ⟨_, hpass u, by simp [Cpu.increment]⟩) u
  exact ⟨v, t, hrun, hrounds, hzero⟩

end Avr
