import Mathlib.Data.List.Induction
import Mathlib.Data.List.Nodup
import Avr.Lowering.Condition

namespace Avr

/-- Stands by itself as a part of the name of a label. -/
def IsPlain (name : String) : Prop := '@' ∉ name.toList ∧ name.toList.head? ≠ some '?'

instance (name : String) : Decidable (IsPlain name) := inferInstanceAs (Decidable (_ ∧ _))

/-- What sets an expansion apart. -/
def expansionMark : String := "_inl"

/-- A procedure that labels can be named by. -/
def IsStemName (name : String) : Prop :=
  IsPlain name ∧ ¬ expansionMark.toList <:+: name.toList

instance (name : String) : Decidable (IsStemName name) := inferInstanceAs (Decidable (_ ∧ _))

namespace Numeral

theorem isDigit_of_mem_toString {n : Nat} {c : Char} (h : c ∈ (toString n).toList) : c.isDigit := by
  rw [Nat.toString_eq_repr, Nat.toList_repr] at h
  exact Nat.isDigit_of_mem_toDigits (by omega) (by omega) h

theorem toString_inj {m n : Nat} (h : toString m = toString n) : m = n := by
  have hvalue := congrArg (fun s => Nat.ofDigitChars 10 s.toList 0) h
  simpa [Nat.toString_eq_repr] using hvalue

/-- Digits end where something else begins. -/
theorem digits_append_inj {ds es us vs : List Char} (hds : ∀ c ∈ ds, c.isDigit)
    (hes : ∀ c ∈ es, c.isDigit) (hus : ∀ c ∈ us.head?, c.isDigit = false)
    (hvs : ∀ c ∈ vs.head?, c.isDigit = false) (h : ds ++ us = es ++ vs) : ds = es ∧ us = vs := by
  have htake {ds us : List Char} (hds : ∀ c ∈ ds, c.isDigit)
      (hus : ∀ c ∈ us.head?, c.isDigit = false) : (ds ++ us).takeWhile Char.isDigit = ds := by
    rw [List.takeWhile_append_of_pos hds]
    cases us with
    | nil => simp
    | cons c us => simp [hus c (by simp)]
  have hdigits := congrArg (List.takeWhile Char.isDigit) h
  rw [htake hds hus, htake hes hvs] at hdigits
  subst hdigits
  exact ⟨rfl, List.append_cancel_left h⟩

end Numeral

/-- Where a body is lowered: in a procedure, through these expansions, the outermost first. -/
structure Stem where
  procedure : String
  expansions : List Nat := []
deriving DecidableEq

namespace Stem

def suffix (n : Nat) : String := expansionMark ++ toString n

def text (s : Stem) : String := s.procedure ++ String.join (s.expansions.map suffix)

/-- The place of the next expansion inside. -/
def expand (s : Stem) (n : Nat) : Stem := { s with expansions := s.expansions ++ [n] }

theorem text_expand (s : Stem) (n : Nat) : (s.expand n).text = s.text ++ suffix n := by
  simp [text, expand, String.append_assoc]

theorem text_nil (p : String) : text ⟨p, []⟩ = p := by
  simp [text]

theorem toList_text_expand (s : Stem) (n : Nat) :
    (s.expand n).text.toList = s.text.toList ++ expansionMark.toList ++ (toString n).toList := by
  simp [text_expand, suffix]

theorem eq_expand_or_nil (s : Stem) :
    s = ⟨s.procedure, []⟩ ∨ ∃ t n, s = expand t n := by
  obtain ⟨p, ns⟩ := s
  rcases List.eq_nil_or_concat ns with rfl | ⟨ms, n, rfl⟩
  · exact .inl rfl
  · exact .inr ⟨⟨p, ms⟩, n, by simp [expand]⟩

/-- The last expansion can be read off the end. -/
theorem text_expand_inj {s t : Stem} {m n : Nat} (h : (s.expand m).text = (t.expand n).text) :
    s.text = t.text ∧ m = n := by
  have h := congrArg (fun x => x.toList.reverse) h
  simp only [toList_text_expand, List.reverse_append] at h
  have hdigit (n : Nat) : ∀ c ∈ (toString n).toList.reverse, c.isDigit := by
    intro c hc
    exact Numeral.isDigit_of_mem_toString (List.mem_reverse.mp hc)
  obtain ⟨hnumber, hrest⟩ := Numeral.digits_append_inj (hdigit m) (hdigit n)
    (by simp [expansionMark]) (by simp [expansionMark]) h
  refine ⟨?_, ?_⟩
  · exact String.toList_inj.mp (List.reverse_inj.mp (List.append_cancel_left hrest))
  · exact Numeral.toString_inj (String.toList_inj.mp (List.reverse_inj.mp hnumber))

theorem text_expand_ne {s t : Stem} {n : Nat} (hs : s.expansions = [])
    (hn : IsStemName s.procedure) : (t.expand n).text ≠ s.text := by
  intro h
  have h := congrArg String.toList h
  rw [toList_text_expand] at h
  have hs : s.text = s.procedure := by simp [text, hs]
  exact hn.2 ⟨_, _, by rw [h, hs]⟩

theorem text_inj {s t : Stem} (hs : IsStemName s.procedure) (ht : IsStemName t.procedure)
    (h : s.text = t.text) : s = t := by
  obtain ⟨p, ns⟩ := s
  induction ns using List.reverseRecOn generalizing t with
  | nil =>
    rcases t.eq_expand_or_nil with he | ⟨u, n, rfl⟩
    · rw [he, text_nil, text_nil] at h
      rw [he, h]
    · exact (text_expand_ne rfl hs h.symm).elim
  | append_singleton ms m ih =>
    change (expand ⟨p, ms⟩ m).text = t.text at h
    rcases t.eq_expand_or_nil with he | ⟨u, n, rfl⟩
    · rw [he] at h
      exact (text_expand_ne (s := ⟨t.procedure, []⟩) rfl ht h).elim
    · obtain ⟨htext, rfl⟩ := text_expand_inj h
      obtain rfl := ih (t := u) ht hs htext
      rfl

theorem at_not_mem_text {s : Stem} (h : '@' ∉ s.procedure.toList) : '@' ∉ s.text.toList := by
  obtain ⟨p, ns⟩ := s
  induction ns using List.reverseRecOn with
  | nil =>
    rw [text_nil]
    exact h
  | append_singleton ms m ih =>
    change '@' ∉ (expand ⟨p, ms⟩ m).text.toList
    rw [toList_text_expand]
    intro hmem
    rcases List.mem_append.mp hmem with hmem | hmem
    · rcases List.mem_append.mp hmem with hmem | hmem
      · exact ih h hmem
      · simp [expansionMark] at hmem
    · exact absurd (Numeral.isDigit_of_mem_toString hmem) (by decide)

end Stem

/-- What labels are generated for. -/
inductive Construct
  | branch | loop | doWhile
deriving DecidableEq

/-- The labels of the constructs. -/
inductive Kind
  | branch | branchEnd | branchElse
  | loop | loopEnd | loopNext
  | doWhile | doEnd | doNext | test
deriving DecidableEq

namespace Kind

def all : List Kind :=
  [branch, branchEnd, branchElse, loop, loopEnd, loopNext, doWhile, doEnd, doNext, test]

def text : Kind → String
  | branch => "if" | branchEnd => "if_end" | branchElse => "if_else"
  | loop => "loop" | loopEnd => "loopEnd" | loopNext => "loopNext"
  | doWhile => "do" | doEnd => "doEnd" | doNext => "doNext" | test => "while"

def construct : Kind → Construct
  | branch | branchEnd | branchElse => .branch
  | loop | loopEnd | loopNext => .loop
  | doWhile | doEnd | doNext | test => .doWhile

theorem mem_all (k : Kind) : k ∈ all := by
  cases k <;> decide

theorem text_inj {j k : Kind} (h : j.text = k.text) : j = k :=
  List.inj_on_of_nodup_map (show (all.map text).Nodup by decide) j.mem_all k.mem_all h

theorem at_not_mem_text (k : Kind) : '@' ∉ k.text.toList := by
  cases k <;> decide

end Kind

/-- Parts without an `@` can be read back from what `@` makes of them. -/
theorem intercalate_at_inj {ps qs : List String} (hps : ps ≠ []) (hqs : qs ≠ [])
    (hp : ∀ part ∈ ps, '@' ∉ part.toList) (hq : ∀ part ∈ qs, '@' ∉ part.toList)
    (h : "@".intercalate ps = "@".intercalate qs) : ps = qs := by
  have hsplit {ps : List String} (hps : ps ≠ []) (hp : ∀ part ∈ ps, '@' ∉ part.toList) :
      ("@".intercalate ps).toList.splitOn '@' = ps.map String.toList := by
    rw [String.toList_intercalate]
    apply List.splitOn_intercalate
    · intro part hpart
      obtain ⟨p, hp', rfl⟩ := List.mem_map.mp hpart
      exact hp p hp'
    · simpa using hps
  have hparts : ps.map String.toList = qs.map String.toList := by
    rw [← hsplit hps hp, ← hsplit hqs hq, h]
  exact List.map_injective_iff.mpr (fun _ _ => String.toList_inj.mp) hparts

/-- The ways into the parts of a condition, and the way out of it. -/
inductive Turn
  | and1 | and2 | or1 | or2 | notAnd1 | notAnd2 | notOr1 | notOr2 | notNot1 | out
deriving DecidableEq

namespace Turn

def all : List Turn := [and1, and2, or1, or2, notAnd1, notAnd2, notOr1, notOr2, notNot1, out]

def text : Turn → String
  | and1 => "and1" | and2 => "and2" | or1 => "or1" | or2 => "or2"
  | notAnd1 => "not_and1" | notAnd2 => "not_and2" | notOr1 => "not_or1" | notOr2 => "not_or2"
  | notNot1 => "not_not1" | out => "end"

theorem mem_all (t : Turn) : t ∈ all := by
  cases t <;> decide

theorem text_inj {t u : Turn} (h : t.text = u.text) : t = u :=
  List.inj_on_of_nodup_map (show (all.map text).Nodup by decide) t.mem_all u.mem_all h

theorem at_not_mem_text (t : Turn) : '@' ∉ t.text.toList := by
  cases t <;> decide

/-- The name that a way leads to from a stem. -/
def follow (stem : String) (way : List Turn) : String := "@".intercalate (stem :: way.map text)

theorem follow_nil (stem : String) : follow stem [] = stem := String.intercalate_singleton

theorem follow_cons (stem : String) (t : Turn) (way : List Turn) :
    follow stem (t :: way) = follow (stem ++ ("@" ++ t.text)) way := by
  cases way <;> simp [follow, String.append_assoc]

/-- The turns can be read back, whatever the stem is. -/
theorem follow_inj {stem : String} {way other : List Turn}
    (h : follow stem way = follow stem other) : way = other := by
  have hstem (way : List Turn) : follow stem way = stem ++ follow "" way := by
    cases way <;> simp [follow, String.append_assoc]
  have hat (way : List Turn) : ∀ part ∈ "" :: way.map text, '@' ∉ part.toList := by
    rw [List.forall_mem_cons, List.forall_mem_map]
    exact ⟨by simp, fun t _ => t.at_not_mem_text⟩
  rw [hstem way, hstem other, String.append_right_inj] at h
  have hparts := intercalate_at_inj (by simp) (by simp) (hat way) (hat other) h
  exact List.map_injective_iff.mpr (fun _ _ => text_inj) (List.cons.inj hparts).2

end Turn

/-- A label by what it is for. -/
inductive Mark
  /-- A procedure, or a label that is known everywhere. -/
  | global (name : String)
  /-- A label of a body. -/
  | inner (stem : Stem) (name : String)
  | construct (stem : Stem) (kind : Kind) (line : Nat) (way : List Turn)
  /-- One end of code that is limited in size. -/
  | probe (n : Nat) (stops : Bool)
deriving DecidableEq

namespace Mark

def probeName (n : Nat) (stops : Bool) : String :=
  "?probe" ++ toString n ++ if stops then "_end" else "_start"

def parts : Mark → List String
  | global name => [name]
  | inner stem name => [stem.text, name]
  | construct stem kind line way => stem.text :: kind.text :: toString line :: way.map Turn.text
  | probe n stops => [probeName n stops]

def text (m : Mark) : String := "@".intercalate m.parts

/-- Made from names that the source may use. -/
def Proper : Mark → Prop
  | global name => IsPlain name
  | inner stem name => IsStemName stem.procedure ∧ IsPlain name
  | construct stem _ _ _ => IsStemName stem.procedure
  | probe _ _ => True

theorem at_not_mem_toString (n : Nat) : '@' ∉ (toString n).toList := by
  intro h
  exact absurd (Numeral.isDigit_of_mem_toString h) (by decide)

theorem at_not_mem_probeName (n : Nat) (stops : Bool) : '@' ∉ (probeName n stops).toList := by
  have hn := at_not_mem_toString n
  cases stops <;> simp_all [probeName]

/-- The names of the source that the label is made from. -/
def names : Mark → List String
  | global name => [name]
  | inner stem name => [stem.procedure, name]
  | construct stem _ _ _ => [stem.procedure]
  | probe _ _ => []

theorem Proper.at_not_mem {m : Mark} (h : m.Proper) : ∀ name ∈ m.names, '@' ∉ name.toList := by
  cases m with
  | global name => simpa [names] using h.1
  | inner stem name => simpa [names] using ⟨h.1.1.1, h.2.1⟩
  | construct stem kind line way => simpa [names] using h.1.1
  | probe n stops => simp [names]

theorem at_not_mem_parts {m : Mark} (h : ∀ name ∈ m.names, '@' ∉ name.toList) :
    ∀ part ∈ m.parts, '@' ∉ part.toList := by
  intro part hpart
  cases m with
  | global name =>
    rw [List.mem_singleton.mp hpart]
    exact h name (by simp [names])
  | inner stem name =>
    rcases List.mem_pair.mp hpart with rfl | rfl
    · exact Stem.at_not_mem_text (h _ (by simp [names]))
    · exact h _ (by simp [names])
  | construct stem kind line way =>
    simp only [parts, List.mem_cons, List.mem_map] at hpart
    rcases hpart with rfl | rfl | rfl | ⟨t, _, rfl⟩
    · exact Stem.at_not_mem_text (h _ (by simp [names]))
    · exact kind.at_not_mem_text
    · exact at_not_mem_toString line
    · exact t.at_not_mem_text
  | probe n stops =>
    rw [List.mem_singleton.mp hpart]
    exact at_not_mem_probeName n stops

/-- The parts of a name can be read back. -/
theorem parts_eq {m n : Mark} (hm : m.Proper) (hn : n.Proper) (h : m.text = n.text) :
    m.parts = n.parts := by
  have hne (m : Mark) : m.parts ≠ [] := by cases m <;> simp [parts]
  exact intercalate_at_inj (hne m) (hne n) (at_not_mem_parts hm.at_not_mem)
    (at_not_mem_parts hn.at_not_mem) h

theorem probeName_inj {m n : Nat} {a b : Bool} (h : probeName m a = probeName n b) :
    m = n ∧ a = b := by
  have h := congrArg String.toList h
  simp only [probeName, String.toList_append, List.append_assoc] at h
  have hrest (c : Bool) :
      ∀ x ∈ (if c then "_end" else "_start" : String).toList.head?, x.isDigit = false := by
    cases c <;> simp
  obtain ⟨hnumber, hstop⟩ := Numeral.digits_append_inj
    (fun c hc => Numeral.isDigit_of_mem_toString hc)
    (fun c hc => Numeral.isDigit_of_mem_toString hc) (hrest a) (hrest b)
    (List.append_cancel_left h)
  refine ⟨Numeral.toString_inj (String.toList_inj.mp hnumber), ?_⟩
  cases a <;> cases b <;> simp_all

theorem head_probeName (n : Nat) (stops : Bool) :
    (probeName n stops).toList.head? = some '?' := by
  simp [probeName]

/-- Two labels of one name are the same label. -/
theorem text_inj {m n : Mark} (hm : m.Proper) (hn : n.Proper) (h : m.text = n.text) : m = n := by
  have hparts := parts_eq hm hn h
  cases m with
  | global name =>
    cases n with
    | global other =>
      obtain rfl : name = other := List.singleton_inj.mp hparts
      rfl
    | probe k stops =>
      obtain rfl : name = probeName k stops := List.singleton_inj.mp hparts
      exact (hm.2 (head_probeName k stops)).elim
    | _ => simp [parts] at hparts
  | probe k stops =>
    cases n with
    | global name =>
      obtain rfl : probeName k stops = name := List.singleton_inj.mp hparts
      exact (hn.2 (head_probeName k stops)).elim
    | probe j others =>
      obtain ⟨rfl, rfl⟩ := probeName_inj (List.singleton_inj.mp hparts)
      rfl
    | _ => simp [parts] at hparts
  | inner stem name =>
    cases n with
    | inner stem' name' =>
      simp only [parts, List.cons.injEq, and_true] at hparts
      obtain ⟨hstem, rfl⟩ := hparts
      rw [Stem.text_inj hm.1 hn.1 hstem]
    | _ => simp [parts] at hparts
  | construct stem kind line way =>
    cases n with
    | construct stem' kind' line' way' =>
      simp only [parts, List.cons.injEq] at hparts
      obtain ⟨hstem, hkind, hline, hway⟩ := hparts
      rw [Stem.text_inj hm hn hstem, Kind.text_inj hkind, Numeral.toString_inj hline,
        List.map_injective_iff.mpr (fun _ _ => Turn.text_inj) hway]
    | _ => simp [parts] at hparts

theorem text_global (name : String) : (global name).text = name :=
  String.intercalate_singleton

theorem text_inner (stem : Stem) (name : String) :
    (inner stem name).text = stem.text ++ "@" ++ name := by
  simp [text, parts, String.append_assoc]

theorem text_probe (n : Nat) (stops : Bool) : (probe n stops).text = probeName n stops :=
  String.intercalate_singleton

theorem text_construct (stem : Stem) (kind : Kind) (line : Nat) :
    (construct stem kind line []).text =
      stem.text ++ "@" ++ kind.text ++ "@" ++ toString line := by
  simp [text, parts, String.append_assoc]

theorem text_turn (stem : Stem) (kind : Kind) (line : Nat) (way : List Turn) (t : Turn) :
    (construct stem kind line (way ++ [t])).text =
      (construct stem kind line way).text ++ "@" ++ t.text := by
  have hparts : (construct stem kind line (way ++ [t])).parts =
      (construct stem kind line way).parts ++ [t.text] := by
    simp [parts]
  rw [text, hparts, String.intercalate_append_of_ne_nil (by simp [parts]) (by simp),
    String.intercalate_singleton]
  rfl

theorem text_follow (stem : Stem) (kind : Kind) (line : Nat) (way rest : List Turn) :
    Turn.follow (construct stem kind line way).text rest =
      (construct stem kind line (way ++ rest)).text := by
  induction rest generalizing way with
  | nil => rw [Turn.follow_nil, List.append_nil]
  | cons t rest ih =>
    rw [Turn.follow_cons, ← String.append_assoc, ← text_turn, ih, List.append_assoc]
    rfl

end Mark

namespace Test

def label? : Test → Option String
  | label name => some name
  | jump _ => none

/-- The ways out of a condition that its jumps need, each by the turns that lead to it. -/
def ways : Bool → Value → List (List Turn)
  | true, .binary .both a b =>
    (ways false a).map (.and1 :: ·) ++ (ways true b).map (.and2 :: ·) ++ [[.out]]
  | true, .binary .either a b => (ways true a).map (.or1 :: ·) ++ (ways true b).map (.or2 :: ·)
  | true, .unary .not v => ways false v
  | false, .binary .both a b =>
    (ways false a).map (.notAnd1 :: ·) ++ (ways false b).map (.notAnd2 :: ·)
  | false, .binary .either a b =>
    (ways true a).map (.notOr1 :: ·) ++ (ways false b).map (.notOr2 :: ·) ++ [[.out]]
  | false, .unary .not v => (ways true v).map (.notNot1 :: ·)
  | _truth, _v => []

/-- No two ways are the same, because they part at their first turn. -/
theorem nodup_ways (truth : Bool) (v : Value) : (ways truth v).Nodup := by
  have hcons {t : Turn} {ws : List (List Turn)} (h : ws.Nodup) : (ws.map (t :: ·)).Nodup :=
    h.map fun _ _ he => (List.cons.inj he).2
  fun_induction ways truth v with
  | case1 a b iha ihb =>
    simp [List.nodup_append, hcons iha, hcons ihb]
    grind
  | case2 a b iha ihb =>
    simp [List.nodup_append, hcons iha, hcons ihb]
  | case3 v ih => exact ih
  | case4 a b iha ihb =>
    simp [List.nodup_append, hcons iha, hcons ihb]
  | case5 a b iha ihb =>
    simp [List.nodup_append, hcons iha, hcons ihb]
    grind
  | case6 v ih => exact hcons ih
  | case7 => exact List.nodup_nil

/-- The labels of a condition are named by the ways out of it. -/
theorem labels_jumps (truth : Bool) (v : Value) (target : LabelRef) (stem : String) :
    (jumps truth v target stem).filterMap label? = (ways truth v).map (Turn.follow stem) := by
  fun_induction ways truth v generalizing target stem with
  | case1 a b iha ihb =>
    rw [jumps]
    simp [iha, ihb, label?, Function.comp_def, Turn.follow_cons, Turn.follow_nil, Turn.text]
  | case2 a b iha ihb =>
    rw [jumps]
    simp [iha, ihb, Function.comp_def, Turn.follow_cons, Turn.text]
  | case3 v ih =>
    rw [jumps]
    exact ih target stem
  | case4 a b iha ihb =>
    rw [jumps]
    simp [iha, ihb, Function.comp_def, Turn.follow_cons, Turn.text]
  | case5 a b iha ihb =>
    rw [jumps]
    simp [iha, ihb, label?, Function.comp_def, Turn.follow_cons, Turn.follow_nil, Turn.text]
  | case6 v ih =>
    rw [jumps]
    simp [ih, Function.comp_def, Turn.follow_cons, Turn.text]
  | case7 truth v h₁ h₂ h₃ h₄ h₅ h₆ =>
    rw [jumps]
    · simp [label?]
    all_goals assumption

/-- So no label of a condition stands in it twice. -/
theorem nodup_labels_jumps (truth : Bool) (v : Value) (target : LabelRef) (stem : String) :
    ((jumps truth v target stem).filterMap label?).Nodup := by
  rw [labels_jumps]
  exact (nodup_ways truth v).map fun _ _ => Turn.follow_inj

end Test

end Avr
