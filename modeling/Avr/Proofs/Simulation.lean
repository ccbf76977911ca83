import Avr.Proofs.Execution

namespace Avr

namespace Machine

variable {m : Machine μ}

theorem step_eq_none {c : Config μ} (h : m.fetch c.pc = none) : m.step c = none := by
  simp [step, h]

/-- Runs that come to an end come to the same one. -/
theorem run_unique {j k : Nat} {c d e : Config μ} (hj : m.run j c = some d)
    (hk : m.run k c = some e) (hd : m.fetch d.pc = none) (he : m.fetch e.pc = none) : d = e := by
  obtain ⟨hle, -⟩ := run_split hj hk (step_eq_none he)
  obtain ⟨hle', -⟩ := run_split hk hj (step_eq_none hd)
  obtain rfl : j = k := by omega
  exact Option.some.inj (hj.symm.trans hk)

end Machine

/-- Where the ends of a statement lead. -/
def Exit.address (done left again : Nat) : Exit → Nat
  | .done => done
  | .left => left
  | .again => again

namespace Flash

/-- From `a` on, the code runs to where the end of the statement leads, and it comes to an end only
if the statement does. -/
structure Follows (m : Flash μ) (e : Execution μ) (a : Nat) (out : Exit → Nat) : Prop where
  forth : ∀ s x t, e s x t → m.Reaches ⟨a, s⟩ ⟨out x, t⟩
  back : ∀ n s c, m.run n ⟨a, s⟩ = some c → m.fetch c.pc = none → ∃ x t, e s x t

/-- The same, where every way out of the middle takes a step. -/
structure Simulates (m : Flash μ) (e : Execution μ) (a : Nat) (out : Exit → Nat) : Prop where
  forth : ∀ s x t, e s x t → ∃ k, m.run k ⟨a, s⟩ = some ⟨out x, t⟩ ∧ (x ≠ .done → 0 < k)
  back : ∀ n s c, m.run n ⟨a, s⟩ = some c → m.fetch c.pc = none → ∃ x t, e s x t

variable {m : Flash μ} {e f : Execution μ} {a b : Nat} {out out' : Exit → Nat}

theorem follows_exit {x : Exit} (h : out x = a) : m.Follows (.exit x) a out where
  forth := by
    rintro s _ _ ⟨rfl, rfl⟩
    exact ⟨0, by rw [h]; rfl⟩
  back n s c _ _ := ⟨x, s, rfl, rfl⟩

namespace Simulates

theorem follows (h : m.Simulates e a out) : m.Follows e a out where
  forth s x t hs := by
    obtain ⟨k, hk, -⟩ := h.forth s x t hs
    exact ⟨k, hk⟩
  back := h.back

/-- One step that does nothing but go on. -/
theorem exit {x : Exit} (h : ∀ s, m.step ⟨a, s⟩ = some ⟨out x, s⟩) :
    m.Simulates (.exit x) a out where
  forth := by
    rintro s _ _ ⟨rfl, rfl⟩
    exact ⟨1, Machine.run_one (h s), fun _ => Nat.one_pos⟩
  back n s c _ _ := ⟨x, s, rfl, rfl⟩

theorem nothing (h : out .done = a) : m.Simulates (.exit .done) a out where
  forth := by
    rintro s _ _ ⟨rfl, rfl⟩
    exact ⟨0, by rw [h]; rfl, fun hx => (hx rfl).elim⟩
  back n s c _ _ := ⟨.done, s, rfl, rfl⟩

/-- One step that changes the state. -/
theorem straight {g : State μ → Option (State μ)} (hfetch : m.fetch a ≠ none)
    (h : ∀ s, m.step ⟨a, s⟩ = (g s).map fun t => ⟨out .done, t⟩) :
    m.Simulates (fun s x t => x = .done ∧ g s = some t) a out where
  forth := by
    rintro s _ t ⟨rfl, ht⟩
    exact ⟨1, Machine.run_one (by rw [h, ht]; rfl), fun hx => (hx rfl).elim⟩
  back := by
    intro n s c hrun hc
    cases n with
    | zero =>
      cases hrun
      exact (hfetch hc).elim
    | succ n =>
      rw [Machine.run, h] at hrun
      cases hg : g s with
      | none =>
        rw [hg] at hrun
        cases hrun
      | some t => exact ⟨.done, t, rfl, rfl⟩

/-- Ends may lead elsewhere by one more jump, and where none is it does not matter. -/
theorem redirect (h : m.Simulates e a out)
    (hout : ∀ s x t, e s x t → out x = out' x ∨ ∀ u, m.step ⟨out x, u⟩ = some ⟨out' x, u⟩) :
    m.Simulates e a out' where
  forth s x t hs := by
    obtain ⟨k, hk, hpos⟩ := h.forth s x t hs
    rcases hout s x t hs with heq | hstep
    · exact ⟨k, heq ▸ hk, hpos⟩
    · exact ⟨k + 1, Machine.run_trans hk (Machine.run_one (hstep t)), fun _ => by omega⟩
  back := h.back

theorem sequence (he : m.Simulates e a out) (hf : m.Simulates f b out') (hdone : out .done = b)
    (hout : ∀ x, x ≠ .done → out x = out' x) : m.Simulates (e.sequence f) a out' where
  forth := by
    rintro s x t (⟨u, hu, ht⟩ | ⟨hx, ht⟩)
    · obtain ⟨j, hj, -⟩ := he.forth s .done u hu
      obtain ⟨k, hk, hpos⟩ := hf.forth u x t ht
      rw [hdone] at hj
      exact ⟨j + k, Machine.run_trans hj hk, fun hx => Nat.add_pos_right j (hpos hx)⟩
    · rw [← hout x hx]
      exact he.forth s x t ht
  back := by
    intro n s c hrun hc
    obtain ⟨x, u, hu⟩ := he.back n s c hrun hc
    by_cases hx : x = .done
    · subst hx
      obtain ⟨j, hj, -⟩ := he.forth s .done u hu
      rw [hdone] at hj
      obtain ⟨-, hrest⟩ := Machine.run_split hj hrun (Machine.step_eq_none hc)
      obtain ⟨y, t, ht⟩ := hf.back _ u c hrest hc
      exact ⟨y, t, .inl ⟨u, hu, ht⟩⟩
    · exact ⟨x, u, .inr ⟨hx, hu⟩⟩

/-- A condition, and what follows on either answer. -/
theorem branch {v : Value} {truth asked : Bool} {stop target : Nat}
    (hv : m.Branches a stop target truth (v.ask asked))
    (he : m.Follows e (if truth then target else stop) out)
    (hf : m.Follows f (if truth then stop else target) out) :
    m.Simulates (.choice asked v e f) a out := by
  have hcases (s : State μ) : ∃ k, 0 < k ∧ m.run k ⟨a, s⟩ =
      some ⟨if (s.answer asked v).1 then if truth then target else stop
        else if truth then stop else target, (s.answer asked v).2⟩ := by
    obtain ⟨k, hk, hrun⟩ := hv s
    refine ⟨k, hk, hrun.trans ?_⟩
    cases hanswer : (v.ask asked s.cpu).1 <;> cases truth <;> simp [State.answer, hanswer]
  constructor
  · intro s x t h
    obtain ⟨j, hj, hrun⟩ := hcases s
    unfold Execution.choice at h
    split at h
    · next hanswer =>
      rw [if_pos hanswer] at hrun
      obtain ⟨k, hk⟩ := he.forth _ x t h
      exact ⟨j + k, Machine.run_trans hrun hk, fun _ => by omega⟩
    · next hanswer =>
      rw [if_neg hanswer] at hrun
      obtain ⟨k, hk⟩ := hf.forth _ x t h
      exact ⟨j + k, Machine.run_trans hrun hk, fun _ => by omega⟩
  · intro n s c hrun hc
    obtain ⟨j, -, hj⟩ := hcases s
    obtain ⟨-, hrest⟩ := Machine.run_split hj hrun (Machine.step_eq_none hc)
    unfold Execution.choice
    by_cases hanswer : (s.answer asked v).1
    · simp only [hanswer, if_true] at hrest ⊢
      exact he.back _ _ c hrest hc
    · simp only [hanswer, Bool.false_eq_true, if_false] at hrest ⊢
      exact hf.back _ _ c hrest hc

/-- A loop, from what its body does and how the ends of that lead back. -/
theorem repeats {goesOn : State μ → Bool × State μ} {stop : Nat} (he : m.Simulates e a out)
    (hleft : out .left = stop)
    (hback : ∀ x, x ≠ .left → ∀ u, ∃ k, (x = .done → 0 < k) ∧
      m.run k ⟨out x, u⟩ = some ⟨if (goesOn u).1 then a else stop, (goesOn u).2⟩)
    (hstop : out' .done = stop) :
    m.Simulates (fun s x t => x = .done ∧ Repeats e goesOn s t) a out' where
  forth := by
    rintro s _ t ⟨rfl, h⟩
    suffices hreaches : m.Reaches ⟨a, s⟩ ⟨stop, t⟩ by
      obtain ⟨k, hk⟩ := hreaches
      exact ⟨k, hstop ▸ hk, fun hx => (hx rfl).elim⟩
    induction h with
    | @left s t hrun =>
      obtain ⟨k, hk, -⟩ := he.forth s .left t hrun
      exact ⟨k, hleft ▸ hk⟩
    | @stop s t u x hrun hx hgo =>
      obtain ⟨j, hj, -⟩ := he.forth s x t hrun
      obtain ⟨k, -, hk⟩ := hback x hx t
      rw [hgo] at hk
      exact ⟨j + k, Machine.run_trans hj hk⟩
    | @next s t u r x hrun hx hgo _ ih =>
      obtain ⟨j, hj, -⟩ := he.forth s x t hrun
      obtain ⟨k, -, hk⟩ := hback x hx t
      rw [hgo] at hk
      obtain ⟨n, hn⟩ := ih
      exact ⟨j + k + n, Machine.run_trans (Machine.run_trans hj hk) hn⟩
  back := by
    intro n
    -- Going round takes a step, be it that of the body's jump or that of the jump back.
    induction n using Nat.strongRecOn with
    | ind n ih =>
      intro s c hrun hc
      obtain ⟨x, u, hu⟩ := he.back n s c hrun hc
      obtain ⟨j, hj, hpos⟩ := he.forth s x u hu
      by_cases hx : x = .left
      · subst hx
        exact ⟨.done, u, rfl, .left hu⟩
      obtain ⟨k, hpos', hk⟩ := hback x hx u
      have hround := Machine.run_trans hj hk
      obtain ⟨hle, hrest⟩ := Machine.run_split hround hrun (Machine.step_eq_none hc)
      cases hgo : (goesOn u).1 with
      | false => exact ⟨.done, (goesOn u).2, rfl, .stop hu hx (Prod.ext hgo rfl)⟩
      | true =>
        rw [hgo] at hrest
        have hlt : 0 < j + k := by
          by_cases hdone : x = .done
          · have := hpos' hdone
            omega
          · have := hpos hdone
            omega
        obtain ⟨_, t, rfl, ht⟩ := ih (n - (j + k)) (by omega) _ c hrest hc
        exact ⟨.done, t, rfl, .next hu hx (Prod.ext hgo rfl) ht⟩

end Simulates

end Flash

end Avr
