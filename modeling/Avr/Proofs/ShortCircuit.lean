import Avr.Proofs.Conditions
import Avr.Proofs.LabelNames

namespace Avr

namespace Value

/-- Not put together from other conditions. -/
def isAtom : Value → Bool
  | unary .not _ | binary .both _ _ | binary .either _ _ => false
  | _ => true

theorem condition_induction {P : Value → Prop}
    (both : ∀ a b, P a → P b → P (.binary .both a b))
    (either : ∀ a b, P a → P b → P (.binary .either a b)) (not : ∀ a, P a → P (.unary .not a))
    (atom : ∀ a, a.isAtom → P a) (v : Value) : P v := by
  induction v with
  | binary op a b iha ihb =>
    cases op with
    | both => exact both a b iha ihb
    | either => exact either a b iha ihb
    | _ => exact atom _ rfl
  | unary op a ih =>
    cases op with
    | not => exact not a ih
    | _ => exact atom _ rfl
  | _ => exact atom _ rfl

/-- The atoms of a condition from left to right. -/
def atoms : Value → List Value
  | unary .not a => atoms a
  | binary .both a b | binary .either a b => atoms a ++ atoms b
  | a => [a]

theorem atoms_atom {a : Value} (h : a.isAtom) : a.atoms = [a] := by
  unfold atoms
  split <;> first | rfl | cases h

/-- What atoms say. -/
structure Meaning (σ : Type) where
  holds : Value → σ → Bool
  /-- What is left of a state in which a jump has asked if the atom has the given truth value. -/
  after : Bool → Value → σ → σ

/-- What comes out of asking. -/
structure Answer (σ : Type) where
  holds : Bool
  state : σ
  asked : List Value

/-- Goes on asking. -/
def Answer.andThen (x : Answer σ) (f : σ → Answer σ) : Answer σ :=
  let y := f x.state
  { y with asked := x.asked ++ y.asked }

/-- Evaluates a condition from left to right and goes only as far as it needs to. -/
def evaluate (m : Meaning σ) : Bool → Value → σ → Answer σ
  | truth, unary .not a, s =>
    let x := evaluate m (!truth) a s
    { x with holds := !x.holds }
  | truth, binary .both a b, s =>
    let x := evaluate m false a s
    if x.holds then x.andThen (evaluate m truth b) else x
  | truth, binary .either a b, s =>
    let x := evaluate m true a s
    if x.holds then x else x.andThen (evaluate m truth b)
  | truth, a, s => ⟨m.holds a s, m.after truth a s, [a]⟩

theorem evaluate_atom {a : Value} (h : a.isAtom) (m : Meaning σ) (truth : Bool) (s : σ) :
    evaluate m truth a s = ⟨m.holds a s, m.after truth a s, [a]⟩ := by
  unfold evaluate
  split <;> first | rfl | cases h

/-- The truth of a condition whose atoms are true or not once and for all. -/
def isTrue (holds : Value → Bool) : Value → Bool
  | unary .not a => !a.isTrue holds
  | binary .both a b => a.isTrue holds && b.isTrue holds
  | binary .either a b => a.isTrue holds || b.isTrue holds
  | a => holds a

theorem isTrue_atom {a : Value} (h : a.isAtom) (holds : Value → Bool) :
    a.isTrue holds = holds a := by
  unfold isTrue
  split <;> first | rfl | cases h

/-- Where asking makes no difference to the atoms, the answer is the truth. -/
theorem evaluate_of_steady {m : Meaning σ}
    (hm : ∀ a b truth s, m.holds a (m.after truth b s) = m.holds a s) (truth : Bool) (v : Value)
    (s : σ) : (evaluate m truth v s).holds = v.isTrue (m.holds · s) ∧
      ∀ a, m.holds a (evaluate m truth v s).state = m.holds a s := by
  induction v using condition_induction generalizing truth s with
  | both a b iha ihb =>
    obtain ⟨hholds, hsteady⟩ := iha false s
    obtain ⟨hholds', hsteady'⟩ := ihb truth (evaluate m false a s).state
    simp only [hsteady] at hholds' hsteady'
    rw [evaluate, isTrue, ← hholds]
    split
    · next hx => exact ⟨by simp [Answer.andThen, hholds', hx], hsteady'⟩
    · next hx => exact ⟨by simp [hx], hsteady⟩
  | either a b iha ihb =>
    obtain ⟨hholds, hsteady⟩ := iha true s
    obtain ⟨hholds', hsteady'⟩ := ihb truth (evaluate m true a s).state
    simp only [hsteady] at hholds' hsteady'
    rw [evaluate, isTrue, ← hholds]
    split
    · next hx => exact ⟨by simp [hx], hsteady⟩
    · next hx => exact ⟨by simp [Answer.andThen, hholds', hx], hsteady'⟩
  | not a ih =>
    obtain ⟨hholds, hsteady⟩ := ih (!truth) s
    rw [evaluate, isTrue, ← hholds]
    exact ⟨rfl, hsteady⟩
  | atom a h =>
    rw [evaluate_atom h, isTrue_atom h]
    exact ⟨rfl, fun b => hm b a truth s⟩

/-- No atom is asked for twice, and none before one to its left. -/
theorem asked_sublist (m : Meaning σ) (truth : Bool) (v : Value) (s : σ) :
    (evaluate m truth v s).asked.Sublist v.atoms := by
  induction v using condition_induction generalizing truth s with
  | both a b iha ihb =>
    rw [evaluate, atoms]
    split
    · exact (iha false s).append (ihb truth _)
    · exact (iha false s).trans (List.sublist_append_left _ _)
  | either a b iha ihb =>
    rw [evaluate, atoms]
    split
    · exact (iha true s).trans (List.sublist_append_left _ _)
    · exact (iha true s).append (ihb truth _)
  | not a ih => exact ih (!truth) s
  | atom a h => rw [evaluate_atom h, atoms_atom h]

end Value

/-- A jump to `target` if the atom has the given truth value. -/
structure Question where
  truth : Bool
  atom : Value
  target : LabelRef
deriving DecidableEq

def Question.code (q : Question) : Selection := Selection.jumpIf q.truth false q.target q.atom

inductive Piece
  | question (q : Question)
  | label (name : String)
deriving DecidableEq

namespace Piece

def test : Piece → Test
  | question q => .jump q.code
  | label name => .label name

def atom? : Piece → Option Value
  | question q => some q.atom
  | label _ => none

def label? : Piece → Option String
  | question _ => none
  | label name => some name

/-- The jumps on a condition with what they ask. -/
def ofCondition (truth : Bool) (v : Value) (target : LabelRef) (stem : String) : List Piece :=
  let out := stem ++ "@end"
  match truth, v with
  | true, .binary .both a b =>
    ofCondition false a (.plain out) (stem ++ "@and1") ++
      ofCondition true b target (stem ++ "@and2") ++ [label out]
  | true, .binary .either a b =>
    ofCondition true a target (stem ++ "@or1") ++ ofCondition true b target (stem ++ "@or2")
  | true, .unary .not a => ofCondition false a target stem
  | false, .binary .both a b =>
    ofCondition false a target (stem ++ "@not_and1") ++
      ofCondition false b target (stem ++ "@not_and2")
  | false, .binary .either a b =>
    ofCondition true a (.plain out) (stem ++ "@not_or1") ++
      ofCondition false b target (stem ++ "@not_or2") ++ [label out]
  | false, .unary .not a => ofCondition true a target (stem ++ "@not_not1")
  | truth, a => [question ⟨truth, a, target⟩]

theorem ofCondition_atom {a : Value} (h : a.isAtom) (truth : Bool) (target : LabelRef)
    (stem : String) : ofCondition truth a target stem = [question ⟨truth, a, target⟩] := by
  unfold ofCondition
  split <;> first | rfl | cases h

theorem jumps_atom {a : Value} (h : a.isAtom) (truth : Bool) (target : LabelRef) (stem : String) :
    Test.jumps truth a target stem = [.jump (Selection.jumpIf truth false target a)] := by
  unfold Test.jumps
  split <;> first | rfl | cases h

theorem map_test_ofCondition (truth : Bool) (v : Value) (target : LabelRef) (stem : String) :
    (ofCondition truth v target stem).map test = Test.jumps truth v target stem := by
  induction v using Value.condition_induction generalizing truth target stem with
  | both a b iha ihb => cases truth <;> simp [ofCondition, Test.jumps, iha, ihb, test]
  | either a b iha ihb => cases truth <;> simp [ofCondition, Test.jumps, iha, ihb, test]
  | not a ih => cases truth <;> simp [ofCondition, Test.jumps, ih]
  | atom a h =>
    rw [ofCondition_atom h, jumps_atom h]
    rfl

/-- There is one jump for each atom, and they are in order. -/
theorem atoms_ofCondition (truth : Bool) (v : Value) (target : LabelRef) (stem : String) :
    (ofCondition truth v target stem).filterMap atom? = v.atoms := by
  induction v using Value.condition_induction generalizing truth target stem with
  | both a b iha ihb => cases truth <;> simp [ofCondition, Value.atoms, iha, ihb, atom?]
  | either a b iha ihb => cases truth <;> simp [ofCondition, Value.atoms, iha, ihb, atom?]
  | not a ih => cases truth <;> simp [ofCondition, Value.atoms, ih]
  | atom a h => simp [ofCondition_atom h, Value.atoms_atom h, atom?]

theorem nodup_labels (truth : Bool) (v : Value) (target : LabelRef) (stem : String) :
    ((ofCondition truth v target stem).filterMap label?).Nodup := by
  have hlabel : label? = fun p => p.test.label? := by
    funext p
    cases p <;> rfl
  have h := Test.nodup_labels_jumps truth v target stem
  rwa [← map_test_ofCondition, List.filterMap_map, Function.comp_def, ← hlabel] at h

/-- Where control is: before a piece of the code or at its end, or at a label outside of it. -/
inductive Place
  | within (n : Nat)
  | left (target : LabelRef)

/-- Control, and what has come of the run so far. -/
structure Config (σ : Type) where
  place : Place
  state : σ
  asked : List Value

section

variable {σ : Type} (code : List Piece) (exec : Selection → σ → Option LabelRef × σ)

/-- Where a jump to the label leads. -/
def landing (l : LabelRef) : Place :=
  match l.candidates.findSome? fun name => code.findIdx? (· = label name) with
  | some n => .within n
  | none => .left l

/-- One piece of the code. The code for a question may end with a jump. -/
def step (c : Config σ) : Option (Config σ) :=
  match c.place with
  | .left _ => none
  | .within n =>
    match code[n]? with
    | none => none
    | some (label _) => some { c with place := .within (n + 1) }
    | some (question q) =>
      let (jump, t) := exec q.code c.state
      some ⟨jump.elim (.within (n + 1)) (landing code), t, c.asked ++ [q.atom]⟩

def run : Nat → Config σ → Option (Config σ)
  | 0, c => some c
  | k + 1, c => (step code exec c).bind (run k)

/-- The run comes to its end like this, after at most as many steps as there are pieces. -/
def Finishes (s : σ) (c : Config σ) : Prop :=
  ∃ n ≤ code.length, run code exec n ⟨.within 0, s, []⟩ = some c ∧ step code exec c = none

/-- These pieces stand in the code from `start` on. -/
def At (start : Nat) (xs : List Piece) : Prop :=
  ∃ before rest, code = before ++ xs ++ rest ∧ before.length = start

/-- A run of at most `k` pieces leads from one to the other. -/
def Reaches (k : Nat) (c d : Config σ) : Prop := ∃ n ≤ k, run code exec n c = some d

/-- The code from `start` on ends at `target` if what is asked has the given truth value, and at
`stop` if not. -/
def Branches (start stop : Nat) (target : Place) (truth : Bool) (ask : σ → Value.Answer σ)
    (k : Nat) : Prop :=
  ∀ s asked, Reaches code exec k ⟨.within start, s, asked⟩
    ⟨if (ask s).holds = truth then target else .within stop, (ask s).state, asked ++ (ask s).asked⟩

/-- The code for the question is a jump on its atom. -/
def Asks (m : Value.Meaning σ) (q : Question) : Prop :=
  ∀ s, exec q.code s = (if m.holds q.atom s = q.truth then some q.target else none,
    m.after q.truth q.atom s)

end

section

variable {σ : Type} {code : List Piece} {exec : Selection → σ → Option LabelRef × σ}
  {m : Value.Meaning σ} {c d e : Config σ} {j k start mid stop : Nat} {target : Place}
  {truth : Bool} {ask : σ → Value.Answer σ}

theorem run_add (h : run code exec j c = some d) (h' : run code exec k d = some e) :
    run code exec (j + k) c = some e := by
  induction j generalizing c with
  | zero =>
    obtain rfl := Option.some.inj h
    rwa [Nat.zero_add]
  | succ j ih =>
    obtain ⟨b, hb, h⟩ := Option.bind_eq_some_iff.mp h
    rw [Nat.succ_add, run, hb]
    exact ih h

theorem Reaches.trans (h : Reaches code exec j c d) (h' : Reaches code exec k d e) :
    Reaches code exec (j + k) c e := by
  obtain ⟨m, hm, hrun⟩ := h
  obtain ⟨n, hn, hrun'⟩ := h'
  exact ⟨m + n, Nat.add_le_add hm hn, run_add hrun hrun'⟩

theorem Reaches.mono (h : Reaches code exec j c d) (hjk : j ≤ k) : Reaches code exec k c d := by
  obtain ⟨n, hn, hrun⟩ := h
  exact ⟨n, hn.trans hjk, hrun⟩

theorem reaches_step (h : step code exec c = some d) : Reaches code exec 1 c d :=
  ⟨1, Nat.le_refl 1, by rw [run, h]; rfl⟩

namespace Branches

theorem atom {q : Question} (h : code[start]? = some (question q)) (hq : Asks exec m q)
    (ha : q.atom.isAtom) :
    Branches code exec start (start + 1) (landing code q.target) q.truth
      (Value.evaluate m q.truth q.atom) 1 := by
  intro s asked
  refine reaches_step ?_
  rw [Value.evaluate_atom ha]
  simp only [step, h, hq s]
  split <;> rfl

/-- A label in the way makes no difference. -/
theorem label {name : String} (h : code[stop]? = some (.label name))
    (hb : Branches code exec start stop target truth ask k) :
    Branches code exec start (stop + 1) target truth ask (k + 1) := by
  intro s asked
  by_cases ht : (ask s).holds = truth
  · simpa only [if_pos ht] using (hb s asked).mono (Nat.le_succ k)
  · have hend := hb s asked
    rw [if_neg ht] at hend ⊢
    exact hend.trans (reaches_step (by simp [step, h]))

theorem not {a : Value}
    (h : Branches code exec start stop target (!truth) (Value.evaluate m (!truth) a) k) :
    Branches code exec start stop target truth (Value.evaluate m truth (.unary .not a)) k := by
  intro s asked
  simpa [Value.evaluate, Bool.not_eq_eq_eq_not] using h s asked

/-- The second condition is asked for only if the first one holds. -/
theorem both {a b : Value}
    (h : Branches code exec start mid (if truth then .within stop else target) false
      (Value.evaluate m false a) j)
    (h' : Branches code exec mid stop target truth (Value.evaluate m truth b) k) :
    Branches code exec start stop target truth
      (Value.evaluate m truth (.binary .both a b)) (j + k) := by
  intro s asked
  have hfirst := h s asked
  rw [Value.evaluate]
  generalize Value.evaluate m false a s = x at hfirst ⊢
  obtain ⟨holds, state, askedFirst⟩ := x
  cases holds with
  | false =>
    refine Reaches.mono ?_ (Nat.le_add_right j k)
    cases truth <;> exact hfirst
  | true =>
    have hsecond := h' state (asked ++ askedFirst)
    rw [List.append_assoc] at hsecond
    exact hfirst.trans hsecond

/-- The second condition is asked for only if the first one fails. -/
theorem either {a b : Value}
    (h : Branches code exec start mid (if truth then target else .within stop) true
      (Value.evaluate m true a) j)
    (h' : Branches code exec mid stop target truth (Value.evaluate m truth b) k) :
    Branches code exec start stop target truth
      (Value.evaluate m truth (.binary .either a b)) (j + k) := by
  intro s asked
  have hfirst := h s asked
  rw [Value.evaluate]
  generalize Value.evaluate m true a s = x at hfirst ⊢
  obtain ⟨holds, state, askedFirst⟩ := x
  cases holds with
  | true =>
    refine Reaches.mono ?_ (Nat.le_add_right j k)
    cases truth <;> exact hfirst
  | false =>
    have hsecond := h' state (asked ++ askedFirst)
    rw [List.append_assoc] at hsecond
    exact hfirst.trans hsecond

end Branches

theorem At.append {xs ys : List Piece} (h : At code start (xs ++ ys)) :
    At code start xs ∧ At code (start + xs.length) ys := by
  obtain ⟨before, rest, rfl, rfl⟩ := h
  exact ⟨⟨before, ys ++ rest, by simp, rfl⟩, ⟨before ++ xs, rest, by simp, by simp⟩⟩

theorem At.get {x : Piece} (h : At code start [x]) : code[start]? = some x := by
  obtain ⟨before, rest, rfl, rfl⟩ := h
  simp

/-- A label that stands in the code once is found there. -/
theorem At.landing {name : String} (h : At code start [.label name])
    (hlabels : (code.filterMap label?).Nodup) : landing code (.plain name) = .within start := by
  obtain ⟨before, rest, rfl, rfl⟩ := h
  have hfresh : ∀ x ∈ before, x ≠ .label name := by
    rintro x hx rfl
    rw [List.append_assoc, List.filterMap_append, List.nodup_append] at hlabels
    exact hlabels.2.2 name (List.mem_filterMap.mpr ⟨_, hx, rfl⟩) name (by simp [label?]) rfl
  have hbefore : before.findIdx? (· = .label name) = none := by simpa using hfresh
  have hfind : (before ++ [Piece.label name] ++ rest).findIdx? (· = .label name) =
      some before.length := by
    simp [List.findIdx?_append, hbefore, List.findIdx?_cons]
  simp only [Piece.landing, LabelRef.candidates, LabelRef.plain, Option.toList_none,
    List.nil_append, List.findSome?_cons, hfind]

/-- Two conditions, with a label after them for the case that the first one settles it. -/
theorem At.out {xs ys : List Piece} {name : String} (h : At code start (xs ++ ys ++ [.label name]))
    (hlabels : (code.filterMap label?).Nodup) :
    At code start xs ∧ At code (start + xs.length) ys ∧
      code[start + xs.length + ys.length]? = some (.label name) ∧
      Piece.landing code (.plain name) = .within (start + xs.length + ys.length) := by
  obtain ⟨hparts, hlabel⟩ := h.append
  obtain ⟨hxs, hys⟩ := hparts.append
  rw [List.length_append, ← Nat.add_assoc] at hlabel
  exact ⟨hxs, hys, hlabel.get, hlabel.landing hlabels⟩

theorem landing_outside {l : LabelRef} (h : ∀ name ∈ l.candidates, .label name ∉ code) :
    landing code l = .left l := by
  have hnone : l.candidates.findSome? (fun name => code.findIdx? (· = .label name)) = none := by
    rw [List.findSome?_eq_none_iff]
    intro name hname
    rw [List.findIdx?_eq_none_iff]
    intro x hx
    exact decide_eq_false fun he => h name hname (he ▸ hx)
  rw [landing, hnone]

/-- The jumps on a condition are one jump on it, wherever they stand. -/
theorem branches_ofCondition {v : Value} {target : LabelRef} {stem : String}
    (hat : At code start (ofCondition truth v target stem))
    (hlabels : (code.filterMap label?).Nodup)
    (hasks : ∀ q, question q ∈ ofCondition truth v target stem → Asks exec m q) :
    Branches code exec start (start + (ofCondition truth v target stem).length)
      (landing code target) truth (Value.evaluate m truth v)
      (ofCondition truth v target stem).length := by
  -- All of the code stays the same on the way down, so that the labels of one condition are found
  -- among those of all the others.
  induction v using Value.condition_induction generalizing start truth target stem with
  | both a b iha ihb =>
    cases truth with
    | true =>
      simp only [ofCondition] at hat hasks ⊢
      obtain ⟨hfirst, hsecond, hlabel, hout⟩ := hat.out hlabels
      have ha := iha hfirst fun q hq => hasks q (by simp [hq])
      have hb := ihb hsecond fun q hq => hasks q (by simp [hq])
      rw [hout] at ha
      simp only [List.length_append, ← Nat.add_assoc]
      exact (Branches.both ha hb).label hlabel
    | false =>
      simp only [ofCondition] at hat hasks ⊢
      obtain ⟨hfirst, hsecond⟩ := hat.append
      have ha := iha hfirst fun q hq => hasks q (by simp [hq])
      have hb := ihb hsecond fun q hq => hasks q (by simp [hq])
      simp only [List.length_append, ← Nat.add_assoc]
      exact .both ha hb
  | either a b iha ihb =>
    cases truth with
    | true =>
      simp only [ofCondition] at hat hasks ⊢
      obtain ⟨hfirst, hsecond⟩ := hat.append
      have ha := iha hfirst fun q hq => hasks q (by simp [hq])
      have hb := ihb hsecond fun q hq => hasks q (by simp [hq])
      simp only [List.length_append, ← Nat.add_assoc]
      exact .either ha hb
    | false =>
      simp only [ofCondition] at hat hasks ⊢
      obtain ⟨hfirst, hsecond, hlabel, hout⟩ := hat.out hlabels
      have ha := iha hfirst fun q hq => hasks q (by simp [hq])
      have hb := ihb hsecond fun q hq => hasks q (by simp [hq])
      rw [hout] at ha
      simp only [List.length_append, ← Nat.add_assoc]
      exact (Branches.either ha hb).label hlabel
  | not a ih =>
    cases truth with
    | true =>
      simp only [ofCondition] at hat hasks ⊢
      exact (ih hat hasks).not
    | false =>
      simp only [ofCondition] at hat hasks ⊢
      exact (ih hat hasks).not
  | atom a h =>
    rw [ofCondition_atom h] at hat hasks ⊢
    exact .atom (q := ⟨truth, a, target⟩) hat.get (hasks _ (by simp)) h

end

end Piece

open Piece in
/-- The jumps on a condition have one jump for each of its atoms, from left to right. If each of
these is a jump on its atom, and the target is none of the labels between them, then running them
comes to an end: at the target if the condition has the truth value that is looked for, and behind
the last one if not. The atoms that are asked for on the way are those that evaluation from left to
right asks for, in that order and none of them twice. -/
theorem Scope.gotoIf_evaluates {σ : Type} (sc : Scope) (l : Location) (truth : Bool) (v : Value)
    (target : LabelRef) (stem : String) (exec : Selection → σ → Option LabelRef × σ)
    (m : Value.Meaning σ) (s : σ)
    (hasks : ∀ q, .question q ∈ ofCondition truth v target stem → Asks exec m q)
    (htarget : ∀ name ∈ target.candidates, .label name ∉ ofCondition truth v target stem) :
    sc.gotoIf l truth v target stem =
        (ofCondition truth v target stem).forM (fun piece => sc.test l piece.test) ∧
      (ofCondition truth v target stem).filterMap atom? = v.atoms ∧
      Finishes (ofCondition truth v target stem) exec s
        ⟨if (v.evaluate m truth s).holds = truth then .left target
          else .within (ofCondition truth v target stem).length,
          (v.evaluate m truth s).state, (v.evaluate m truth s).asked⟩ ∧
      (v.evaluate m truth s).asked.Sublist v.atoms ∧
      ((∀ a b t s, m.holds a (m.after t b s) = m.holds a s) →
        (v.evaluate m truth s).holds = v.isTrue (m.holds · s)) := by
  refine ⟨?_, atoms_ofCondition truth v target stem, ?_, Value.asked_sublist m truth v s,
    fun hm => (Value.evaluate_of_steady hm truth v s).1⟩
  · have hgoto : sc.gotoIf l truth v target stem =
        (Test.jumps truth v target stem).forM (sc.test l) := rfl
    rw [hgoto, ← map_test_ofCondition]
    exact List.forM_map
  · have hat : At (ofCondition truth v target stem) 0 (ofCondition truth v target stem) :=
      ⟨[], [], by simp, rfl⟩
    obtain ⟨n, hn, hrun⟩ :=
      branches_ofCondition hat (nodup_labels truth v target stem) hasks s []
    rw [landing_outside htarget, Nat.zero_add, List.nil_append] at hrun
    refine ⟨n, hn, hrun, ?_⟩
    split
    · rfl
    · simp [step]

namespace ConditionSample

/-- `r16[0] && !(r17[1] || r18[2])` -/
def condition : Value :=
  .binary .both (.regBit ⟨16⟩ 0)
    (.unary .not (.binary .either (.regBit ⟨17⟩ 1) (.regBit ⟨18⟩ 2)))

/-- What a skip on the bit of a register makes of the jump after it. -/
def skip (c : Selection) (s : Cpu) : Option LabelRef × Cpu :=
  match c with
  | .ok ⟨[⟨.sbrc, [.reg r, .number k], _⟩, ⟨.rjmp, [.label l], _⟩], _⟩ =>
    (if (s.regs r).getLsbD k.toNatClampNeg then some l else none, s)
  | .ok ⟨[⟨.sbrs, [.reg r, .number k], _⟩, ⟨.rjmp, [.label l], _⟩], _⟩ =>
    (if (s.regs r).getLsbD k.toNatClampNeg then none else some l, s)
  | _ => (none, s)

def bits : Value.Meaning Cpu where
  holds
    | .regBit r k, s => (s.regs r).getLsbD k
    | _, _ => false
  after _ _ s := s

def far : LabelRef := .plain "far"

def code : List Piece := Piece.ofCondition true condition far "if"

theorem code_eq : code = [.question ⟨false, .regBit ⟨16⟩ 0, .plain "if@end"⟩,
    .question ⟨true, .regBit ⟨17⟩ 1, .plain "if@and2@end"⟩, .question ⟨false, .regBit ⟨18⟩ 2, far⟩,
    .label "if@and2@end", .label "if@end"] := by
  rfl

theorem asks_bits : ∀ q, .question q ∈ code → Piece.Asks skip bits q := by
  intro q hq
  simp only [code_eq, List.mem_cons, Piece.question.injEq, List.not_mem_nil, or_false,
    reduceCtorEq] at hq
  rcases hq with rfl | rfl | rfl
  · intro s
    change (if (s.regs ⟨16⟩).getLsbD 0 then none else some (LabelRef.plain "if@end"), s) =
      (if (s.regs ⟨16⟩).getLsbD 0 = false then some (LabelRef.plain "if@end") else none, s)
    cases (s.regs ⟨16⟩).getLsbD 0 <;> rfl
  · intro s
    rfl
  · intro s
    change (if (s.regs ⟨18⟩).getLsbD 2 then none else some far, s) =
      (if (s.regs ⟨18⟩).getLsbD 2 = false then some far else none, s)
    cases (s.regs ⟨18⟩).getLsbD 2 <;> rfl

def scope : Scope where
  globals := { device := ⟨"sample", 8192, 96, 1024, 0, [], []⟩ }

end ConditionSample

open ConditionSample in
theorem Scope.gotoIf_evaluates_nested :
    Piece.Finishes code skip ⟨fun _ => 3, {}⟩
      ⟨.within 5, ⟨fun _ => 3, {}⟩, [.regBit ⟨16⟩ 0, .regBit ⟨17⟩ 1]⟩ := by
  have htarget : ∀ name ∈ far.candidates, .label name ∉ code := by
    decide
  exact (Scope.gotoIf_evaluates scope (.point "a" 1 1) true condition far "if" skip bits
    ⟨fun _ => 3, {}⟩ asks_bits htarget).2.2.1

end Avr
