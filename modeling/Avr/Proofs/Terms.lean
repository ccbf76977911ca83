import Avr.Source.Operator
import Avr.Proofs.LabelNames

namespace Avr

inductive Term
  | number (n : Nat)
  | name (s : String)
  | minus (t : Term)
  | low (t : Term)
  | high (t : Term)
  | apply (op : BinaryOp) (left right : Term)

/-- What is read off the front of a text, and the rest of it. -/
abbrev Reading (α : Type) := List Char → Option (α × List Char)

namespace Term

/-- Names stand for addresses in bytes. -/
def value (symbols : List (String × Nat)) : Term → Option Int32
  | number n => some (Int32.ofNat n)
  | name s => (symbols.lookup s).map Int32.ofNat
  | minus t => (t.value symbols).map (-·)
  | low t => (t.value symbols).map (· &&& 255)
  | high t => (t.value symbols).map fun (k : Int32) => (k >>> 8) &&& 255
  | apply op left right => do op.apply (← left.value symbols) (← right.value symbols)

def isNameChar (c : Char) : Bool := c.isAlphanum || c = '_' || 128 ≤ c.toNat

/-- Longer symbols come first. -/
def operators : List BinaryOp :=
  BinaryOp.all.filter (·.symbol.length = 2) ++ BinaryOp.all.filter (·.symbol.length = 1)

def operator? : Reading BinaryOp := fun cs =>
  (operators.find? (·.symbol.toList.isPrefixOf cs)).map fun op => (op, cs.drop op.symbol.length)

/-- What stands between two parentheses. -/
def level (operand : Reading Term) : Reading Term := fun cs =>
  match operand cs with
  | none => none
  | some (left, cs) =>
    match operator? cs with
    | none => some (left, cs)
    | some (op, cs) => (operand cs).map fun (right, cs) => (apply op left right, cs)

def enclosed (operand : Reading Term) : Reading Term := fun cs =>
  match level operand cs with
  | some (t, ')' :: cs) => some (t, cs)
  | _ => none

def functions : List (List Char × (Term → Term)) := [("lo8".toList, low), ("hi8".toList, high)]

/-- A number or a name, or a function if a parenthesis follows the name. -/
def word (enclosed : Reading Term) : Reading Term := fun cs =>
  let digits := cs.takeWhile Char.isDigit
  let letters := cs.takeWhile isNameChar
  if digits ≠ [] then some (number (Nat.ofDigitChars 10 digits 0), cs.drop digits.length)
  else if letters = [] then none
  else
    match functions.lookup letters, cs.drop letters.length with
    | some f, '(' :: cs => (enclosed cs).map fun (t, cs) => (f t, cs)
    | _, cs => some (name (String.ofList letters), cs)

/-- Operands are read to some depth. -/
def operand : Nat → Reading Term
  | 0, _ => none
  | n + 1, '-' :: cs => (operand n cs).map fun (t, cs) => (minus t, cs)
  | n + 1, '(' :: cs => enclosed (operand n) cs
  | n + 1, cs => word (enclosed (operand n)) cs

/-- The whole text. It goes no deeper than it is long. -/
def read (s : String) : Option Term :=
  match level (operand s.length) s.toList with
  | some (t, []) => some t
  | _ => none

example : read "-(a+2)&hi8(lo8-1)" =
    some (apply (.arith .and) (minus (apply (.arith .add) (name "a") (number 2)))
      (high (apply (.arith .sub) (name "lo8") (number 1)))) := rfl

example : read "a+2-1" = none := rfl

def isIdentifier (s : String) : Bool :=
  s.toList.head?.any (!·.isDigit) && s.toList.all isNameChar

/-- Cannot be taken for more of the word before it. -/
def Apart (rest : List Char) : Prop := ∀ c ∈ rest.head?, isNameChar c = false ∧ c ≠ '('

def Closing (rest : List Char) : Prop := ∀ c ∈ rest.head?, c = ')' ∨ c = ','

/-- Is read as this operand, whatever follows. -/
def IsOperand (cs : List Char) (t : Term) : Prop :=
  ∀ n rest, cs.length ≤ n → Apart rest → operand n (cs ++ rest) = some (t, rest)

/-- Is read as this term between parentheses or commas. -/
def IsLevel (cs : List Char) (t : Term) : Prop :=
  ∀ n rest, cs.length ≤ n → Closing rest → level (operand n) (cs ++ rest) = some (t, rest)

theorem Closing.apart {rest : List Char} (h : Closing rest) : Apart rest := by
  intro c hc
  rcases h c hc with rfl | rfl <;> decide

theorem operator_closing {rest : List Char} (h : Closing rest) : operator? rest = none := by
  cases rest with
  | nil => rfl
  | cons c cs => rcases h c rfl with rfl | rfl <;> rfl

/-- What no operand begins with. -/
def strange : List Char := ['=', '<', '>', '&', '|', ' ', '\t']

theorem operator_symbol (op : BinaryOp) {c : Char} (hc : c ∉ strange) (cs : List Char) :
    operator? (op.symbol.toList ++ c :: cs) = some (op, c :: cs) := by
  have hne : ∀ d ∈ strange, d ≠ c := fun d hd h => hc (h ▸ hd)
  simp only [strange, List.forall_mem_cons] at hne
  have hoperators : operators = [.arith .shl, .arith .shr, .both, .either, .rel .eq, .rel .ne,
      .rel .le, .rel .ge, .arith .add, .arith .sub, .arith .mul, .arith .div, .arith .rem,
      .arith .and, .arith .or, .arith .xor, .rel .lt, .rel .gt] := by
    decide
  have hfind : operators.find? (·.symbol.toList.isPrefixOf (op.symbol.toList ++ c :: cs)) =
      some op := by
    rw [hoperators]
    cases op with
    | arith op => cases op <;> simp [BinaryOp.symbol, ArithOp.symbol, RelOp.symbol, hne]
    | both => simp [BinaryOp.symbol, ArithOp.symbol]
    | either => simp [BinaryOp.symbol, ArithOp.symbol]
    | rel op => cases op <;> simp [BinaryOp.symbol, ArithOp.symbol, RelOp.symbol, hne]
  rw [operator?, hfind, Option.map_some, ← String.length_toList, List.drop_left]

theorem operand_nil (n : Nat) : operand n [] = none := by
  cases n <;> rfl

theorem operand_strange {c : Char} (hc : c ∈ strange) (n : Nat) (cs : List Char) :
    operand n (c :: cs) = none := by
  cases n with
  | zero => rfl
  | succ n =>
    simp only [strange, List.mem_cons, List.not_mem_nil, or_false] at hc
    rcases hc with rfl | rfl | rfl | rfl | rfl | rfl | rfl <;> rfl

/-- A word is read as such. -/
theorem operand_word {c : Char} (hc : isNameChar c) (n : Nat) (cs : List Char) :
    operand (n + 1) (c :: cs) = word (enclosed (operand n)) (c :: cs) := by
  have hne {d : Char} {ds : List Char} (hd : isNameChar d = false) : c :: cs ≠ d :: ds := by
    intro h
    rw [(List.cons.inj h).1, hd] at hc
    cases hc
  rw [operand]
  · exact fun _ => hne (by decide)
  · exact fun _ => hne (by decide)

theorem takeWhile_append {p : Char → Bool} {ds rest : List Char} (hds : ∀ c ∈ ds, p c)
    (hrest : ∀ c ∈ rest.head?, p c = false) : (ds ++ rest).takeWhile p = ds := by
  rw [List.takeWhile_append_of_pos hds]
  cases rest with
  | nil => simp
  | cons c rest => simp [hrest c (by simp)]

theorem Apart.isDigit {rest : List Char} (h : Apart rest) :
    ∀ c ∈ rest.head?, c.isDigit = false := by
  intro c hc
  have hname := (h c hc).1
  simp only [isNameChar, Char.isAlphanum, Bool.or_eq_false_iff] at hname
  exact hname.1.1.2

theorem isOperand_number (n : Nat) : IsOperand (toString n).toList (number n) := by
  have hdigits : ∀ c ∈ (toString n).toList, c.isDigit := fun c => Numeral.isDigit_of_mem_toString
  have hvalue : Nat.ofDigitChars 10 (toString n).toList 0 = n := by
    simp [Nat.toString_eq_repr]
  have hne : (toString n).toList ≠ [] := by
    simp [Nat.toString_eq_repr, Nat.toDigits_ne_nil]
  obtain ⟨c, cs, hcs⟩ := List.exists_cons_of_ne_nil hne
  rw [hcs] at hdigits hvalue ⊢
  intro fuel rest hfuel hrest
  obtain ⟨fuel, rfl⟩ := Nat.exists_eq_succ_of_ne_zero (Nat.ne_zero_of_lt hfuel)
  have hname : isNameChar c := by simp [isNameChar, Char.isAlphanum, hdigits c (by simp)]
  rw [List.cons_append, operand_word hname, ← List.cons_append, word,
    takeWhile_append hdigits hrest.isDigit]
  simp [hvalue]

theorem isOperand_name {s : String} (hs : isIdentifier s) : IsOperand s.toList (name s) := by
  simp only [isIdentifier, Bool.and_eq_true, List.all_eq_true] at hs
  obtain ⟨hfirst, hname⟩ := hs
  have hs : String.ofList s.toList = s := String.ofList_toList
  cases hcs : s.toList with
  | nil => simp [hcs] at hfirst
  | cons c cs =>
    rw [hcs] at hfirst hname hs
    intro fuel rest hfuel hrest
    obtain ⟨fuel, rfl⟩ := Nat.exists_eq_succ_of_ne_zero (Nat.ne_zero_of_lt hfuel)
    have hdigit : c.isDigit = false := by simpa using hfirst
    have hdigits : (c :: cs ++ rest).takeWhile Char.isDigit = [] := by simp [hdigit]
    rw [List.cons_append, operand_word (hname c (by simp)), ← List.cons_append, word, hdigits,
      takeWhile_append hname fun c hc => (hrest c hc).1]
    simp only [ne_eq, not_true_eq_false, if_false, reduceCtorEq, List.drop_left, hs]
    split
    · exact absurd rfl (hrest '(' rfl).2
    · rfl

theorem IsOperand.minus {cs : List Char} {t : Term} (h : IsOperand cs t) :
    IsOperand ('-' :: cs) (minus t) := by
  intro fuel rest hfuel hrest
  obtain ⟨fuel, rfl⟩ := Nat.exists_eq_succ_of_ne_zero (Nat.ne_zero_of_lt hfuel)
  rw [List.cons_append, operand, h fuel rest (Nat.le_of_succ_le_succ hfuel) hrest]
  rfl

theorem IsLevel.enclosed {cs : List Char} {t : Term} (h : IsLevel cs t) {n : Nat}
    (hn : cs.length ≤ n) (rest : List Char) :
    enclosed (operand n) (cs ++ ')' :: rest) = some (t, rest) := by
  simp only [Term.enclosed, h n (')' :: rest) hn (by simp [Closing])]

theorem IsLevel.parens {cs : List Char} {t : Term} (h : IsLevel cs t) :
    IsOperand ('(' :: (cs ++ [')'])) t := by
  intro fuel rest hfuel _
  obtain ⟨fuel, rfl⟩ := Nat.exists_eq_succ_of_ne_zero (Nat.ne_zero_of_lt hfuel)
  have hn : cs.length ≤ fuel := by simp at hfuel; omega
  simpa [operand] using h.enclosed hn rest

theorem IsLevel.function {name cs : List Char} {f : Term → Term} {t : Term} (h : IsLevel cs t)
    (hf : (name, f) ∈ functions) : IsOperand (name ++ '(' :: (cs ++ [')'])) (f t) := by
  intro fuel rest hfuel _
  simp only [List.length_append, List.length_cons] at hfuel
  obtain ⟨fuel, rfl⟩ := Nat.exists_eq_succ_of_ne_zero (n := fuel) (by omega)
  have hcall (cs : List Char) : operand (fuel + 1) (name ++ '(' :: cs) =
      (Term.enclosed (operand fuel) cs).map fun (t, cs) => (f t, cs) := by
    simp only [functions, List.mem_cons, Prod.mk.injEq, List.not_mem_nil, or_false] at hf
    rcases hf with ⟨rfl, rfl⟩ | ⟨rfl, rfl⟩ <;> rfl
  simp only [List.append_assoc, List.cons_append, List.nil_append, hcall,
    h.enclosed (show cs.length ≤ fuel by omega), Option.map_some]

theorem IsOperand.isLevel {cs : List Char} {t : Term} (h : IsOperand cs t) : IsLevel cs t := by
  intro n rest hn hrest
  simp only [level, h n rest hn hrest.apart, operator_closing hrest]

theorem IsLevel.head {cs : List Char} {t : Term} (h : IsLevel cs t) :
    ∃ c ds, cs = c :: ds ∧ c ∉ strange := by
  have hread := h cs.length [] (Nat.le_refl _) (by simp [Closing])
  rw [List.append_nil] at hread
  cases cs with
  | nil => simp [level, operand_nil] at hread
  | cons c ds =>
    refine ⟨c, ds, rfl, fun hc => ?_⟩
    simp [level, operand_strange hc] at hread

theorem apart_symbol (op : BinaryOp) (cs : List Char) : Apart (op.symbol.toList ++ cs) := by
  have hhead : ∃ c ds, op.symbol.toList = c :: ds ∧ isNameChar c = false ∧ c ≠ '(' := by
    cases op with
    | arith op => cases op <;> exact ⟨_, _, rfl, by decide⟩
    | both => exact ⟨_, _, rfl, by decide⟩
    | either => exact ⟨_, _, rfl, by decide⟩
    | rel op => cases op <;> exact ⟨_, _, rfl, by decide⟩
  obtain ⟨c, ds, hop, hc⟩ := hhead
  rw [hop]
  rintro d ⟨⟩
  exact hc

theorem IsOperand.apply {a b : List Char} {t u : Term} (ha : IsOperand a t) (hb : IsOperand b u)
    (op : BinaryOp) : IsLevel (a ++ (op.symbol.toList ++ b)) (apply op t u) := by
  intro n rest hn hrest
  obtain ⟨c, ds, rfl, hc⟩ := hb.isLevel.head
  simp only [List.length_append] at hn
  have hleft := ha n (op.symbol.toList ++ (c :: ds ++ rest)) (by omega) (apart_symbol op _)
  have hright := hb n rest (by omega) hrest.apart
  simp only [List.append_assoc, level, hleft]
  rw [List.cons_append, operator_symbol op hc, ← List.cons_append]
  simp only [hright, Option.map_some]

theorem read_eq {s : String} {t : Term} (h : IsLevel s.toList t) : read s = some t := by
  have hread := h s.length [] (Nat.le_of_eq String.length_toList) (by simp [Closing])
  rw [List.append_nil] at hread
  simp only [read, hread]

end Term

end Avr
