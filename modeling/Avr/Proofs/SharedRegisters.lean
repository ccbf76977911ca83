import Avr.Lowering.Assign
import Avr.Proofs.GroupUpdates

namespace Avr

open Cpu

/-- The bytes of two groups in the order in which an operation goes through them: carries run from
the low byte up, and bits are combined from the high byte down. -/
def ArithOp.inOrder (op : ArithOp) (rs ss : List Reg) : List (Reg × Reg) :=
  match op with
  | .add | .sub => (rs.zip ss).reverse
  | _ => rs.zip ss

namespace Cpu

/-- What holds of two steps in every state. -/
theorem pairwise_follows_iff {α : Type} {dest source : α → Reg} {f : Byte → Byte → Byte}
    {xs : List α} :
    (∀ s, xs.Pairwise (Follows dest source f s)) ↔
      xs.Pairwise fun x y => ∀ s, Follows dest source f s x y := by
  simp only [List.pairwise_iff_forall_sublist]
  exact ⟨fun h _ _ hxy s => h s hxy, fun h s _ _ hxy => h hxy s⟩

/-- All registers hold the same byte. -/
def uniform (b : Byte) : Cpu := ⟨fun _ => b, {}⟩

section

variable {f : Byte → Byte → Byte} {x y : Reg × Reg}

/-- Reading a byte that has been changed makes no difference to an idempotent operation if the
change has brought in nothing new. -/
theorem follows_idempotent_iff (one zero : Byte) (hne : f one (f one zero) ≠ f one one)
    (hself : ∀ a b, f a (f b b) = f a b) (hback : ∀ a b, f a (f b a) = f a b) :
    (∀ s, Follows Prod.fst Prod.snd f s x y) ↔ (y.2 = x.1 → x.2 = x.1 ∨ x.2 = y.1) := by
  constructor
  · intro h he
    by_contra hnot
    obtain ⟨hx, hy⟩ := not_or.mp hnot
    have hsep := h ((uniform one).set x.2 zero) he
    rw [he, set_regs_self, set_regs_of_ne _ _ (Ne.symm hx), set_regs_of_ne _ _ (Ne.symm hy)] at hsep
    exact hne hsep
  · intro h s he
    rcases h he with hx | hy
    · rw [hx, hself, he]
    · rw [hy, hback, he]

theorem follows_and_iff :
    (∀ s, Follows Prod.fst Prod.snd (· &&& ·) s x y) ↔ (y.2 = x.1 → x.2 = x.1 ∨ x.2 = y.1) := by
  refine follows_idempotent_iff 255 0 (by decide) (fun a b => by rw [BitVec.and_self]) ?_
  intro a b
  rw [BitVec.and_comm b a, ← BitVec.and_assoc, BitVec.and_self]

theorem follows_or_iff :
    (∀ s, Follows Prod.fst Prod.snd (· ||| ·) s x y) ↔ (y.2 = x.1 → x.2 = x.1 ∨ x.2 = y.1) := by
  refine follows_idempotent_iff 0 255 (by decide) (fun a b => by rw [BitVec.or_self]) ?_
  intro a b
  rw [BitVec.or_comm b a, ← BitVec.or_assoc, BitVec.or_self]

theorem follows_xor_iff : (∀ s, Follows Prod.fst Prod.snd (· ^^^ ·) s x y) ↔ y.2 ≠ x.1 := by
  constructor
  · intro h he
    exact absurd (h (uniform 1) he) (by simp [uniform])
  · intro h s he
    exact absurd he h

end

end Cpu

namespace Selection

variable {rs ss : List Reg} {is : List Instruction}

/-- Bits are combined right in every state exactly if each step may follow those before it. -/
theorem combines_iff {m : Mnemonic} {F : Nat → Nat → Nat} {g : Byte → Byte → Byte}
    (hb : Bitwise F g)
    (hexec : ∀ (s : Cpu) d r, s.execRegs d r m = some (s.setBits d (g (s.regs d) (s.regs r))))
    {w : Nat} (hw : rs.length = w) (hd : rs.Nodup) (h : (pairwise m rs ss).Gives is) :
    (∀ s t, run is s = some t →
        t.bits w rs = BitVec.ofNat (8 * w) (F (s.number rs) (s.number ss))) ↔
      (rs.zip ss).Pairwise fun x y => ∀ s, Follows Prod.fst Prod.snd g s x y := by
  rw [← pairwise_follows_iff]
  refine forall_congr' fun s => ?_
  obtain ⟨t, hr, hread, -⟩ := ends_pairwise hexec hd h s
  rw [hr, ← combined_iff g hread, ← bits_combined_iff hb hw (length_of_gives_pairwise h)]
  simp

theorem map_lowPairs (hlen : ss.length = rs.length) :
    (lowPairs rs ss).map (fun x => (x.1.2, x.2)) = (rs.zip ss).reverse := by
  calc (lowPairs rs ss).map (Prod.map Prod.snd id)
      = ((lowFirst rs).map Prod.snd).zip ss.reverse := List.zip_map_left.symm
    _ = rs.reverse.zip ss.reverse := by rw [map_snd_lowFirst]
    _ = (rs.zip ss).reverse := (List.reverse_zipWith hlen.symm).symm

/-- Two numbers are added right exactly if every byte that is read is as it was at first. -/
theorem adds_iff_readings {minus : Bool} {w : Nat} (hw : rs.length = w)
    (hlen : ss.length = rs.length) {s t : Cpu} {c' : Bool}
    (h : Ripple (fun y => Adds (if minus then -1 else 1) (s.regs y.1.1.2) y.2)
      (fun y => t.regs y.1.1.2)
      (readings (fun x => x.1.2) Prod.snd s t [] (lowPairs rs ss)) false c') :
    t.bits w rs = accumulate minus (s.bits w rs) (s.bits w ss) ↔
      ∀ y ∈ readings (fun x => x.1.2) Prod.snd s t [] (lowPairs rs ss), y.2 = s.regs y.1.2 := by
  have hbytes : ss.reverse.map s.regs = (readings (fun x => x.1.2) Prod.snd s t []
      (lowPairs rs ss)).map fun y => s.regs y.1.2 := by
    rw [map_readings fun x : (Nat × Reg) × Reg => s.regs x.2, map_snd_lowPairs hlen]
  have hcount : (ss.reverse.map s.regs).length = w := by simp [hlen, hw]
  rw [bits_of_readings hw hlen h, accumulate_inj, bits, number, ofNat_little_inj ?_ hcount, hbytes,
    List.map_inj_left]
  rw [← hcount, hbytes, List.length_map, List.length_map]

/-- One and one do not make one, and there is nothing to carry. -/
theorem ne_one_of_ripple {α : Type} {minus : Bool} {a b out : α → Byte} {xs : List α} {c' : Bool}
    (h : Ripple (fun x => Adds (if minus then -1 else 1) (a x) (b x)) out xs false c')
    (ha : ∀ x ∈ xs, a x = 1) (hb : ∀ x ∈ xs, b x = 1) : ∀ x ∈ xs, out x ≠ 1 := by
  generalize hc : false = c at h
  induction h with
  | nil c => simp
  | @cons x xs c c₁ c' step rest ih =>
    subst hc
    rw [List.forall_mem_cons] at ha hb ⊢
    rw [ha.1, hb.1, Adds] at step
    have hlt := (out x).isLt
    have hstep : (out x).toNat ≠ 1 ∧ c₁ = false := by
      cases minus <;> cases c₁ <;> simp at step ⊢ <;> omega
    refine ⟨fun he => hstep.1 (by simp [he]), ih ha.2 hb.2 hstep.2.symm⟩

/-- Numbers are added or subtracted right in every state exactly if no byte is read that has been
changed. -/
theorem adds_iff {minus : Bool} {w : Nat} (hw : rs.length = w) (hd : rs.Nodup)
    (h : (addGroups minus rs ss).Gives is) :
    (∀ s t, run is s = some t → t.bits w rs = accumulate minus (s.bits w rs) (s.bits w ss)) ↔
      (rs.zip ss).reverse.Pairwise fun x y => y.2 ≠ x.1 := by
  have hlen := length_of_gives_addGroups h
  rw [← map_lowPairs hlen, List.pairwise_map]
  constructor
  · intro hright
    -- With a one in every register, a byte that has been changed is none.
    obtain ⟨t, hrun, ⟨c', hr⟩, -⟩ := ends_addGroups hd h (uniform 1)
    have hread := (adds_iff_readings hw hlen hr).mp (hright _ t hrun)
    have hne := ne_one_of_ripple hr (fun _ _ => rfl) hread
    refine pairwise_of_readings hread fun x hx => ?_
    rw [← List.map_id (lowPairs rs ss), ← map_readings id] at hx
    obtain ⟨y, hy, rfl⟩ := List.mem_map.mp hx
    exact hne y hy
  · intro hp s t hrun
    obtain ⟨u, hu, ⟨c', hr⟩, -⟩ := ends_addGroups hd h s
    obtain rfl : t = u := Option.some.inj (hrun.symm.trans hu)
    rw [adds_iff_readings hw hlen hr, readings_eq_map (by simp) hp, List.forall_mem_map]
    intro x _
    rfl

/-- Has code that changes no register but `rs`, and that leaves there what `f` says in every state,
exactly if `P` holds. -/
def RightIff (x : Selection) (rs : List Reg) (f : Cpu → BitVec (8 * rs.length)) (P : Prop) : Prop :=
  ∃ c, x = .ok c ∧
    (∀ s, ∃ t, run c.instructions s = some t ∧ ∀ r, r ∉ rs → t.regs r = s.regs r) ∧
    ((∀ s t, run c.instructions s = some t → t.bits rs.length rs = f s) ↔ P)

theorem RightIff.of_gives {x : Selection} {f : Cpu → BitVec (8 * rs.length)} {P : Prop}
    (h : x.Gives is) (hends : ∀ s, Ends is s fun t => ∀ r, r ∉ rs → t.regs r = s.regs r)
    (hiff : (∀ s t, run is s = some t → t.bits rs.length rs = f s) ↔ P) : RightIff x rs f P := by
  obtain ⟨c, hc, rfl⟩ := h
  exact ⟨c, hc, hends, hiff⟩

theorem RightIff.congr {x : Selection} {f g : Cpu → BitVec (8 * rs.length)} {P Q : Prop}
    (h : RightIff x rs f P) (hf : ∀ s, f s = g s) (hP : P ↔ Q) : RightIff x rs g Q := by
  obtain rfl : f = g := funext hf
  rwa [← propext hP]

section

variable (hlen : ss.length = rs.length) (hd : rs.Nodup)

include hlen hd

theorem rightIff_addGroups (minus : Bool) :
    RightIff (addGroups minus rs ss) rs
      (fun s => accumulate minus (s.bits rs.length rs) (s.bits rs.length ss))
      ((rs.zip ss).reverse.Pairwise fun x y => y.2 ≠ x.1) := by
  obtain ⟨is, h⟩ : ∃ is, (addGroups minus rs ss).Gives is := by
    rw [addGroups_eq hlen]
    exact exists_gives_sequence fun x _ => ⟨_, gives_onRegs (forms_addMnemonic _ _) _ _⟩
  exact .of_gives h (fun s => (ends_addGroups hd h s).imp fun _ ht => ht.2) (adds_iff rfl hd h)

theorem rightIff_pairwise {m : Mnemonic} (hm : m.forms = [[.reg, .reg]]) {F : Nat → Nat → Nat}
    {g : Byte → Byte → Byte} (hb : Bitwise F g)
    (hexec : ∀ (s : Cpu) d r, s.execRegs d r m = some (s.setBits d (g (s.regs d) (s.regs r)))) :
    RightIff (pairwise m rs ss) rs
      (fun s => BitVec.ofNat (8 * rs.length) (F (s.number rs) (s.number ss)))
      ((rs.zip ss).Pairwise fun x y => ∀ s, Follows Prod.fst Prod.snd g s x y) := by
  obtain ⟨is, h⟩ : ∃ is, (pairwise m rs ss).Gives is := by
    rw [pairwise_eq m hlen]
    exact exists_gives_sequence fun x _ => ⟨_, gives_onRegs hm _ _⟩
  exact .of_gives h (fun s => (ends_pairwise hexec hd h s).imp fun _ ht => ht.2)
    (combines_iff hb hexec rfl hd h)

end

/-- The code for a group that is combined with another changes that group alone. What is left in it
is right, whatever the registers held, exactly if no byte of the other group is read that has been
changed as a byte of the first. Such a byte may be read in a conjunction or a disjunction all the
same, if it was combined with itself or with the byte that reads it. -/
theorem update_groups_iff (op : ArithOp) (rs ss : List Reg)
    (hop : op ∈ [.add, .sub, .and, .or, .xor]) (hlen : rs.length = ss.length) (hd : rs.Nodup) :
    ∃ c, assignBy (.update op) (.group rs) (.group ss) = .ok c ∧
      (∀ s, ∃ t, run c.instructions s = some t ∧ ∀ r, r ∉ rs → t.regs r = s.regs r) ∧
      ((∀ s t, run c.instructions s = some t → t.bits rs.length rs =
          op.onWords (s.bits rs.length rs) (s.bits rs.length ss)) ↔
        (op.inOrder rs ss).Pairwise fun x y =>
          y.2 = x.1 → (op = .and ∨ op = .or) ∧ (x.2 = x.1 ∨ x.2 = y.1)) := by
  change RightIff (updateGroup rs op (.group ss)) rs _ _
  simp only [List.mem_cons, List.not_mem_nil, or_false] at hop
  rcases hop with rfl | rfl | rfl | rfl | rfl
  · rw [updateGroup, addGroup]
    exact (rightIff_addGroups hlen.symm hd false).congr (fun _ => rfl) (by simp [ArithOp.inOrder])
  · rw [updateGroup, addGroup]
    exact (rightIff_addGroups hlen.symm hd true).congr (fun _ => rfl) (by simp [ArithOp.inOrder])
  · refine (rightIff_pairwise hlen.symm hd (m := .and) rfl bitwise_and fun _ _ _ => rfl).congr
      (fun _ => BitVec.ofNat_and) ?_
    simp [ArithOp.inOrder, follows_and_iff]
  · refine (rightIff_pairwise hlen.symm hd (m := .or) rfl bitwise_or fun _ _ _ => rfl).congr
      (fun _ => BitVec.ofNat_or) ?_
    simp [ArithOp.inOrder, follows_or_iff]
  · refine (rightIff_pairwise hlen.symm hd (m := .eor) rfl bitwise_xor fun _ _ _ => rfl).congr
      (fun _ => BitVec.ofNat_xor) ?_
    simp [ArithOp.inOrder, follows_xor_iff]

namespace SharedSample

/-- `r17.r16` -/
def first : List Reg := [⟨17⟩, ⟨16⟩]

/-- `r18.r17` -/
def second : List Reg := [⟨18⟩, ⟨17⟩]

end SharedSample

open SharedSample in
theorem update_groups_iff_shifted :
    (∃ c, assignBy (.update .add) (.group first) (.group second) = .ok c ∧
      ∀ s t, run c.instructions s = some t → t.bits 2 first = s.bits 2 first + s.bits 2 second) ∧
    ∃ c, assignBy (.update .and) (.group first) (.group second) = .ok c ∧
      ¬ ∀ s t, run c.instructions s = some t →
        t.bits 2 first = s.bits 2 first &&& s.bits 2 second := by
  constructor
  · obtain ⟨c, hc, -, hiff⟩ := update_groups_iff .add first second (by decide) rfl (by decide)
    exact ⟨c, hc, hiff.mpr (by decide)⟩
  · obtain ⟨c, hc, -, hiff⟩ := update_groups_iff .and first second (by decide) rfl (by decide)
    exact ⟨c, hc, fun h => absurd (hiff.mp h) (by decide)⟩

end Selection

end Avr
