import Avr.Proofs.Conditions

namespace Avr

/-- How a statement ends. -/
inductive Exit
  | done
  /-- By `break`. -/
  | left
  /-- By `continue`. -/
  | again
deriving DecidableEq

/-- From which state a statement gets to which, and how it ends. -/
abbrev Execution (μ : Type) := State μ → Exit → State μ → Prop

/-- The value that a condition has by the names around it. -/
def Names.condition? (n : Names) (e : Located Expr) : Option Value := (n.resolve e).outcome.toOption

/-- What the parts of statements stand for. -/
structure Meaning (μ : Type) where
  condition : Located Expr → Option Value
  instruction : AsmInstruction → Option Instruction
  effect : Effect μ

/-- The answer to a condition, and the state after it, which differs in its flags only. -/
def State.answer (s : State μ) (truth : Bool) (v : Value) : Bool × State μ :=
  ((v.ask truth s.cpu).1, s.withStatus (v.ask truth s.cpu).2)

/-- Goes round a loop until its body leaves it, or until it is not to go on. -/
inductive Repeats (body : Execution μ) (goesOn : State μ → Bool × State μ) :
    State μ → State μ → Prop
  | left {s t : State μ} (run : body s .left t) : Repeats body goesOn s t
  | stop {s t u : State μ} {x : Exit} (run : body s x t) (inside : x ≠ .left)
      (stop : goesOn t = (false, u)) : Repeats body goesOn s u
  | next {s t u r : State μ} {x : Exit} (run : body s x t) (inside : x ≠ .left)
      (next : goesOn t = (true, u)) (rest : Repeats body goesOn u r) : Repeats body goesOn s r

/-- One after the other. -/
def Execution.sequence (first second : Execution μ) : Execution μ := fun s x t =>
  (∃ u, first s .done u ∧ second u x t) ∨ (x ≠ .done ∧ first s x t)

/-- The one or the other, by the answer to a condition. -/
def Execution.choice (truth : Bool) (v : Value) (yes no : Execution μ) : Execution μ := fun s x t =>
  if (s.answer truth v).1 then yes (s.answer truth v).2 x t else no (s.answer truth v).2 x t

/-- Does nothing but end so. -/
def Execution.exit (e : Exit) : Execution μ := fun s x t => x = e ∧ s = t

namespace Stmt

/-- A statement that only jumps out of the loop body. -/
def isExit : Stmt → Bool
  | leave | again => true
  | _ => false

/-- The truth value that a conditional statement asks for. It asks whether its condition holds if it
then has a jump to make, or an instruction to keep from being skipped, or nothing to do. -/
def asks (yes : Stmt) (no : Option (Located Stmt)) (v : Value) : Bool :=
  yes.isExit || if no.all (·.value.isEmpty) then (yes.skip? v).isSome else yes.isEmpty

end Stmt

mutual

/-- The statement ends so, in that state. -/
def Stmt.Executes (M : Meaning μ) (st : Stmt) : Execution μ := fun s x t =>
  match st with
  | .asm i => x = .done ∧ ∃ r, M.instruction i = some r ∧ r.perform M.effect s = some t
  | .leave => Execution.exit .left s x t
  | .again => Execution.exit .again s x t
  | .branch condition ⟨_, yes⟩ no =>
    ∃ v, M.condition condition = some v ∧
      Execution.choice (yes.asks no v) v (yes.Executes M) (executesOption M no) s x t
  | .loop none body => x = .done ∧ Repeats (executesAll M body) (true, ·) s t
  | .doWhile body condition =>
    x = .done ∧ ∃ v, M.condition condition = some v ∧
      Repeats (executesAll M body) (·.answer true v) s t
  | .block body => executesAll M body s x t
  | _ => False
termination_by structural st

def executesOption (M : Meaning μ) (st : Option (Located Stmt)) : Execution μ :=
  match st with
  | none => Execution.exit .done
  | some ⟨_, st⟩ => st.Executes M
termination_by structural st

def executesAll (M : Meaning μ) (body : List (Located Stmt)) : Execution μ :=
  match body with
  | [] => Execution.exit .done
  | ⟨_, st⟩ :: rest => (st.Executes M).sequence (executesAll M rest)
termination_by structural body

end

/-- An instruction that goes straight on. -/
def AsmInstruction.isStraight (i : AsmInstruction) : Bool :=
  (Mnemonic.ofName? i.mnemonic.value).any Mnemonic.isStraight

mutual

/-- Built from blocks, conditional statements, loops without a counter and straight instructions,
with conditions on registers and flags, and with each `break` and `continue` in a loop. -/
def Stmt.isStructured (condition : Located Expr → Option Value) (inLoop : Bool) (st : Stmt) :
    Bool :=
  match st with
  | .asm i => i.isStraight
  | .leave | .again => inLoop
  | .branch c ⟨_, yes⟩ none =>
    (condition c).any Value.isCondition && yes.isStructured condition inLoop
  | .branch c ⟨_, yes⟩ (some ⟨_, no⟩) =>
    (condition c).any Value.isCondition && yes.isStructured condition inLoop &&
      no.isStructured condition inLoop
  | .loop none body => areStructured condition true body
  | .doWhile body c => areStructured condition true body && (condition c).any Value.isCondition
  | .block body => areStructured condition inLoop body
  | _ => false
termination_by structural st

def areStructured (condition : Located Expr → Option Value) (inLoop : Bool)
    (body : List (Located Stmt)) : Bool :=
  match body with
  | [] => true
  | ⟨_, st⟩ :: rest => st.isStructured condition inLoop && areStructured condition inLoop rest
termination_by structural body

end

/-- What does nothing makes no difference. -/
theorem Execution.exit_sequence (e : Execution μ) : (exit .done).sequence e = e := by
  funext s x t
  refine propext ⟨?_, fun h => .inl ⟨s, ⟨rfl, rfl⟩, h⟩⟩
  rintro (⟨u, ⟨-, rfl⟩, h⟩ | ⟨hx, h, -⟩)
  · exact h
  · exact (hx h).elim

section

variable {M : Meaning μ}

mutual

theorem Stmt.executes_isEmpty (st : Stmt) (h : st.isEmpty) :
    st.Executes M = Execution.exit .done := by
  match st with
  | .block body =>
    simp only [Stmt.isEmpty] at h
    funext s x t
    simp only [Stmt.Executes, executesAll_areEmpty body h]
termination_by structural st

theorem executesAll_areEmpty (body : List (Located Stmt)) (h : areEmpty body) :
    executesAll M body = Execution.exit .done := by
  match body with
  | [] => rfl
  | ⟨l, st⟩ :: rest =>
    simp only [areEmpty, Bool.and_eq_true] at h
    rw [executesAll, Stmt.executes_isEmpty st h.1, Execution.exit_sequence,
      executesAll_areEmpty rest h.2]
termination_by structural body

end

theorem executesOption_isEmpty {no : Option (Located Stmt)} (h : no.all (·.value.isEmpty)) :
    executesOption M no = Execution.exit .done := by
  cases no with
  | none => rfl
  | some no => exact Stmt.executes_isEmpty no.value h

mutual

/-- Outside of a loop there is nothing to leave. -/
theorem Stmt.done_of_isStructured {condition : Located Expr → Option Value} {s t : State μ}
    {x : Exit} (st : Stmt) (hst : st.isStructured condition false) (h : st.Executes M s x t) :
    x = .done := by
  match st with
  | .asm i => exact h.1
  | .branch c ⟨_, yes⟩ none =>
    simp only [Stmt.isStructured, Bool.and_eq_true] at hst
    simp only [Stmt.Executes] at h
    obtain ⟨v, -, h⟩ := h
    unfold Execution.choice at h
    split at h
    · exact Stmt.done_of_isStructured yes hst.2 h
    · exact h.1
  | .branch c ⟨_, yes⟩ (some ⟨_, no⟩) =>
    simp only [Stmt.isStructured, Bool.and_eq_true] at hst
    simp only [Stmt.Executes] at h
    obtain ⟨v, -, h⟩ := h
    unfold Execution.choice at h
    split at h
    · exact Stmt.done_of_isStructured yes hst.1.2 h
    · exact Stmt.done_of_isStructured no hst.2 h
  | .loop none body => exact h.1
  | .doWhile body c => exact h.1
  | .block body =>
    simp only [Stmt.isStructured] at hst
    simp only [Stmt.Executes] at h
    exact done_of_areStructured body hst h
termination_by structural st

theorem done_of_areStructured {condition : Located Expr → Option Value} {s t : State μ} {x : Exit}
    (body : List (Located Stmt)) (hbody : areStructured condition false body)
    (h : executesAll M body s x t) : x = .done := by
  match body with
  | [] => exact h.1
  | ⟨l, st⟩ :: rest =>
    simp only [areStructured, Bool.and_eq_true] at hbody
    simp only [executesAll] at h
    rcases h with ⟨u, -, h⟩ | ⟨-, h⟩
    · exact done_of_areStructured rest hbody.2 h
    · exact Stmt.done_of_isStructured st hbody.1 h
termination_by structural body

end

mutual

/-- Only what has a `continue` in it goes on with the loop. -/
theorem Stmt.continues_of_executes {s t : State μ} (st : Stmt) (h : st.Executes M s .again t) :
    st.continues := by
  match st with
  | .again => rfl
  | .branch c ⟨_, yes⟩ none =>
    simp only [Stmt.Executes] at h
    obtain ⟨v, -, h⟩ := h
    unfold Execution.choice at h
    split at h
    · exact Stmt.continues_of_executes yes h
    · cases h.1
  | .branch c ⟨_, yes⟩ (some ⟨_, no⟩) =>
    simp only [Stmt.Executes] at h
    obtain ⟨v, -, h⟩ := h
    simp only [Stmt.continues, Bool.or_eq_true]
    unfold Execution.choice at h
    split at h
    · exact .inl (Stmt.continues_of_executes yes h)
    · exact .inr (Stmt.continues_of_executes no h)
  | .block body =>
    simp only [Stmt.Executes] at h
    exact continues_of_executesAll body h
  | .asm i => cases h.1
  | .leave => cases h.1
  | .loop none body => cases h.1
  | .doWhile body c => cases h.1
termination_by structural st

theorem continues_of_executesAll {s t : State μ} (body : List (Located Stmt))
    (h : executesAll M body s .again t) : anyContinues body := by
  match body with
  | [] => cases h.1
  | ⟨l, st⟩ :: rest =>
    simp only [executesAll] at h
    simp only [anyContinues, Bool.or_eq_true]
    rcases h with ⟨u, -, h⟩ | ⟨-, h⟩
    · exact .inr (continues_of_executesAll rest h)
    · exact .inl (Stmt.continues_of_executes st h)
termination_by structural body

end

end

end Avr
