import Avr.Output.AsmText
import Avr.Proofs.DataRows
import Avr.Proofs.JumpTargets
import Avr.Proofs.Sorting
import Avr.Proofs.Terms

namespace Avr

open Outcome

namespace AddrExpr

def references : AddrExpr → List LabelRef
  | const _ => []
  | address r => [r]
  | negate e => e.references
  | binary _ left right => left.references ++ right.references

variable {place : LabelRef → Option Nat}

theorem eval_address {r : LabelRef} {k : Int32} :
    (address r).eval place = .ok k ↔ ∃ a, place r = some a ∧ Int32.ofNat a = k := by
  rw [eval]
  cases place r <;> simp

theorem eval_negate {e : AddrExpr} {k : Int32} :
    (negate e).eval place = .ok k ↔ ∃ a, e.eval place = .ok a ∧ -a = k := by
  simp only [eval, bind_ok, pure_ok]

theorem eval_binary {op : BinaryOp} {left right : AddrExpr} {k : Int32} :
    (binary op left right).eval place = .ok k ↔
      ∃ a b, left.eval place = .ok a ∧ right.eval place = .ok b ∧ op.apply a b = some k := by
  simp only [eval, bind_ok]
  constructor
  · intro h
    obtain ⟨a, ha, b, hb, h⟩ := h
    refine ⟨a, b, ha, hb, ?_⟩
    split at h
    · next hk => rwa [← Except.ok.inj h]
    · cases h
  · intro h
    obtain ⟨a, b, ha, hb, hk⟩ := h
    exact ⟨a, ha, b, hb, by rw [hk]⟩

end AddrExpr

namespace Listing

/-- The names that are printed and what they stand for. -/
def symbols (l : Listing) : List (String × Nat) :=
  (l.labels.filter (!AsmText.isProbe ·.1)).map fun x => (AsmText.gccName x.1, x.2)

/-- The printed names are identifiers, no two of them alike. -/
structure Readable (l : Listing) : Prop where
  identifiers : ∀ s ∈ l.symbols, Term.isIdentifier s.1
  distinct : (l.symbols.map Prod.fst).Nodup

/-- Every name in the expression is one that is printed. -/
def Names (l : Listing) (e : AddrExpr) : Prop :=
  ∀ r ∈ e.references, AsmText.isProbe (l.target r) = false

theorem names_binary {l : Listing} {op : BinaryOp} {left right : AddrExpr} :
    l.Names (.binary op left right) ↔ l.Names left ∧ l.Names right := by
  simp only [Names, AddrExpr.references, List.forall_mem_append]

/-- A reference is printed under the name of the label that it was found by. -/
theorem lookup_target {l : Listing} {r : LabelRef} {a : Nat} (h : r.find? l.labels = some a) :
    l.labels.lookup (l.target r) = some a := by
  unfold LabelRef.find? at h
  unfold target
  generalize r.candidates = names at h ⊢
  induction names with
  | nil => cases h
  | cons name names ih =>
    cases hname : l.labels.lookup name with
    | none =>
      simp only [List.findSome?_cons, hname] at h
      simpa [hname] using ih h
    | some b =>
      simp only [List.findSome?_cons, hname] at h
      simp [hname, h]

theorem mem_symbols {l : Listing} {r : LabelRef} {a : Nat} (h : r.find? l.labels = some a)
    (hprobe : AsmText.isProbe (l.target r) = false) :
    (AsmText.gccName (l.target r), a) ∈ l.symbols := by
  obtain ⟨before, after, hlabels, -⟩ := List.lookup_eq_some_iff.mp (lookup_target h)
  apply List.mem_map.mpr
  exact ⟨(l.target r, a), by simp [hlabels, hprobe], rfl⟩

end Listing

namespace Term

/-- Signed numbers are read as they are printed. -/
theorem isOperand_toString (symbols : List (String × Nat)) (k : Int32) :
    ∃ t, IsOperand (toString k.toInt).toList t ∧ t.value symbols = some k := by
  have hk : Int32.ofInt k.toInt = k := Int32.ofInt_toInt k
  cases h : k.toInt with
  | ofNat n =>
    refine ⟨number n, isOperand_number n, ?_⟩
    rw [← hk, h]
    rfl
  | negSucc n =>
    have htext : (toString (Int.negSucc n)).toList = '-' :: (toString (n + 1)).toList := by
      change ("-" ++ toString (n + 1)).toList = _
      simp
    refine ⟨minus (number (n + 1)), htext ▸ (isOperand_number (n + 1)).minus, ?_⟩
    rw [← hk, h, Int.negSucc_eq, Int32.ofInt_neg]
    rfl

end Term

namespace AsmText

open Term

/-- The text of the expression can be read, alone and as an operand, and has this value. -/
structure Denotes (l : Listing) (e : AddrExpr) (k : Int32) : Prop where
  alone : ∃ t, IsLevel (gccAddress l e).toList t ∧ t.value l.symbols = some k
  operand : ∃ t, IsOperand (parens e (gccAddress l e)).toList t ∧ t.value l.symbols = some k

theorem Denotes.of_operand {l : Listing} {e : AddrExpr} {k : Int32} {t : Term}
    (he : ∀ s, parens e s = s) (ht : IsOperand (gccAddress l e).toList t)
    (hk : t.value l.symbols = some k) : Denotes l e k :=
  ⟨⟨t, ht.isLevel, hk⟩, t, by rwa [he], hk⟩

theorem Denotes.of_binary {l : Listing} {op : BinaryOp} {left right : AddrExpr} {k : Int32}
    {t : Term} (ht : IsLevel (gccAddress l (.binary op left right)).toList t)
    (hk : t.value l.symbols = some k) : Denotes l (.binary op left right) k := by
  refine ⟨⟨t, ht, hk⟩, t, ?_, hk⟩
  simpa [parens] using ht.parens

theorem eval_byteMask {place : LabelRef → Option Nat} {op : BinaryOp} {left right : AddrExpr}
    {k : Int32} (hmask : isByteMask op right)
    (h : (AddrExpr.binary op left right).eval place = .ok k) :
    ∃ a, left.eval place = .ok a ∧ a &&& 255 = k := by
  simp only [isByteMask, Bool.and_eq_true, decide_eq_true_eq] at hmask
  obtain ⟨rfl, rfl⟩ := hmask
  obtain ⟨a, b, ha, hb, hk⟩ := AddrExpr.eval_binary.mp h
  cases hb
  exact ⟨a, ha, Option.some.inj hk⟩

theorem Denotes.low {l : Listing} {op : BinaryOp} {left right : AddrExpr} {a : Int32}
    (h : Denotes l left a)
    (htext : gccAddress l (.binary op left right) = "lo8(" ++ gccAddress l left ++ ")") :
    Denotes l (.binary op left right) (a &&& 255) := by
  obtain ⟨t, ht, hvalue⟩ := h.alone
  have hlow := ht.function (show ("lo8".toList, Term.low) ∈ functions by simp [functions])
  refine .of_binary (t := Term.low t) ?_ ?_
  · simpa [htext] using hlow.isLevel
  · simp [Term.value, hvalue]

theorem Denotes.high {l : Listing} {op op' : BinaryOp} {inner shift right : AddrExpr} {a : Int32}
    (h : Denotes l inner a) (htext : gccAddress l (.binary op (.binary op' inner shift) right) =
      "hi8(" ++ gccAddress l inner ++ ")") :
    Denotes l (.binary op (.binary op' inner shift) right) ((a >>> 8) &&& 255) := by
  obtain ⟨t, ht, hvalue⟩ := h.alone
  have hhigh := ht.function (show ("hi8".toList, Term.high) ∈ functions by simp [functions])
  refine .of_binary (t := Term.high t) ?_ ?_
  · simpa [htext] using hhigh.isLevel
  · simp [Term.value, hvalue]

theorem Denotes.apply {l : Listing} {op : BinaryOp} {left right : AddrExpr} {a b k : Int32}
    (hleft : Denotes l left a) (hright : Denotes l right b) (hk : op.apply a b = some k)
    (htext : gccAddress l (.binary op left right) =
      parens left (gccAddress l left) ++ op.symbol ++ parens right (gccAddress l right)) :
    Denotes l (.binary op left right) k := by
  obtain ⟨t, ht, hvalue⟩ := hleft.operand
  obtain ⟨u, hu, hvalue'⟩ := hright.operand
  refine .of_binary (t := Term.apply op t u) ?_ ?_
  · simpa [htext] using ht.apply hu op
  · simp [Term.value, hvalue, hvalue', hk]

/-- What is printed for an expression can be read, and has its value. -/
theorem denotes_gccAddress {l : Listing} (hl : l.Readable) {e : AddrExpr} {k : Int32}
    (hnames : l.Names e) (heval : e.eval (LabelRef.find? l.labels) = .ok k) : Denotes l e k := by
  fun_induction gccAddress l e generalizing k with
  | case1 c =>
    cases heval
    obtain ⟨t, ht, hk⟩ := isOperand_toString l.symbols c
    exact .of_operand (fun _ => rfl) ht hk
  | case2 r =>
    obtain ⟨a, ha, rfl⟩ := AddrExpr.eval_address.mp heval
    have hmem := Listing.mem_symbols ha (hnames r (by simp [AddrExpr.references]))
    have hname : isIdentifier (gccName (l.target r)) := hl.identifiers (_, a) hmem
    refine .of_operand (t := Term.name (gccName (l.target r))) (fun _ => rfl) ?_ ?_
    · rw [gccAddress]
      exact isOperand_name hname
    · rw [Term.value, (lookup_mem hl.distinct).mpr hmem]
      rfl
  | case3 e ih =>
    obtain ⟨a, ha, rfl⟩ := AddrExpr.eval_negate.mp heval
    obtain ⟨t, ht, hvalue⟩ := (ih hnames ha).alone
    apply Denotes.of_operand (t := Term.minus t) (fun _ => rfl)
    · simpa [gccAddress] using ht.parens.minus
    · simp [Term.value, hvalue]
  | case4 op op' inner shift right hmask hshift ih =>
    obtain ⟨b, hb, rfl⟩ := eval_byteMask hmask heval
    obtain ⟨rfl, rfl⟩ := hshift
    obtain ⟨a, c, ha, hc, hshift⟩ := AddrExpr.eval_binary.mp hb
    cases hc
    cases hshift
    obtain ⟨hleft, -⟩ := Listing.names_binary.mp hnames
    exact (ih (Listing.names_binary.mp hleft).1 ha).high (by simp [gccAddress, hmask])
  | case5 op op' inner shift right hmask hshift ih =>
    obtain ⟨a, ha, rfl⟩ := eval_byteMask hmask heval
    apply (ih (Listing.names_binary.mp hnames).1 ha).low
    rw [gccAddress]
    simp [hmask, hshift]
  | case6 op op' inner shift right hmask ihl ihr =>
    obtain ⟨a, b, ha, hb, hk⟩ := AddrExpr.eval_binary.mp heval
    obtain ⟨hl, hr⟩ := Listing.names_binary.mp hnames
    apply (ihl hl ha).apply (ihr hr hb) hk
    rw [gccAddress]
    simp [hmask, parens]
  | case7 op left right hleft hmask ih =>
    obtain ⟨a, ha, rfl⟩ := eval_byteMask hmask heval
    apply (ih (Listing.names_binary.mp hnames).1 ha).low
    rw [gccAddress]
    · simp [hmask]
    · exact hleft
  | case8 op left right hleft hmask ihl ihr =>
    obtain ⟨a, b, ha, hb, hk⟩ := AddrExpr.eval_binary.mp heval
    obtain ⟨hl, hr⟩ := Listing.names_binary.mp hnames
    apply (ihl hl ha).apply (ihr hr hb) hk
    rw [gccAddress]
    · simp [hmask]
    · exact hleft

end AsmText

namespace Row

open Term

def isBlank (c : Char) : Bool := c = ' ' || c = '\t'

/-- The directives, and how many bytes each item takes. -/
def widths : List (String × Nat) := [(".byte", 1), (".word", 2), (".long", 4)]

/-- Terms with commas between them. -/
def items (cs : List Char) : Option (List Term) :=
  match level (operand cs.length) cs with
  | some (t, []) => some [t]
  | some (t, ',' :: rest) =>
    if rest.length < cs.length then (items (rest.dropWhile isBlank)).map (t :: ·) else none
  | _ => none
termination_by cs.length
decreasing_by exact Nat.lt_of_le_of_lt (List.dropWhile_sublist isBlank).length_le ‹_›

/-- The low byte comes first. -/
def littleEndian : Nat → Nat → List UInt8
  | 0, _ => []
  | width + 1, n => UInt8.ofNat n :: littleEndian width (n / 256)

def assemble (symbols : List (String × Nat)) (text : String) : Option (List UInt8) := do
  let cs := text.toList.dropWhile isBlank
  let directive := cs.takeWhile (!isBlank ·)
  let width ← widths.lookup (String.ofList directive)
  let rest := (cs.drop directive.length).dropWhile isBlank
  let terms ← if rest = [] then some [] else items rest
  let values ← terms.mapM (value symbols)
  return values.flatMap fun k => littleEndian width k.toBitVec.toNat

theorem isBlank_of_strange {c : Char} (h : c ∉ strange) : isBlank c = false := by
  simp only [strange, List.mem_cons, not_or] at h
  simp [isBlank, h]

theorem dropWhile_isBlank {cs : List Char} (h : ∀ c ∈ cs.head?, isBlank c = false) :
    cs.dropWhile isBlank = cs := by
  cases cs with
  | nil => rfl
  | cons c cs => simp [h c rfl]

/-- Items are read one after the other. -/
theorem items_commas {texts : List (List Char)} {terms : List Term}
    (h : List.Forall₂ IsLevel texts terms) (hne : texts ≠ []) :
    (∃ c ∈ ([',', ' '].intercalate texts).head?, isBlank c = false) ∧
      items ([',', ' '].intercalate texts) = some terms := by
  induction h with
  | nil => exact absurd rfl hne
  | @cons x t xs ts hx hxs ih =>
    obtain ⟨c, cs, hc, hstrange⟩ := hx.head
    have hblank := isBlank_of_strange hstrange
    cases hxs with
    | nil =>
      have hread := hx x.length [] (Nat.le_refl _) (by simp [Closing])
      rw [List.append_nil] at hread
      rw [List.intercalate_singleton, items, hread]
      exact ⟨⟨c, by simp [hc], hblank⟩, rfl⟩
    | @cons y u ys us hy hys =>
      obtain ⟨⟨d, hd, hnext⟩, hitems⟩ := ih (by simp)
      generalize hrest : [',', ' '].intercalate (y :: ys) = rest at hd hitems
      have htext : [',', ' '].intercalate (x :: y :: ys) = x ++ ',' :: ' ' :: rest := by
        simp [List.intercalate_cons_cons, hrest]
      have hdrop : (' ' :: rest).dropWhile isBlank = rest := by
        rw [List.dropWhile_cons_of_pos (by simp [isBlank])]
        apply dropWhile_isBlank
        intro e he
        rwa [Option.mem_unique he hd]
      have hread := hx (x ++ ',' :: ' ' :: rest).length (',' :: ' ' :: rest) (by simp)
        (by simp [Closing])
      rw [htext, items, hread]
      refine ⟨⟨c, by simp [hc], hblank⟩, ?_⟩
      have hlt : (' ' :: rest).length < (x ++ ',' :: ' ' :: rest).length := by
        simp only [List.length_append, List.length_cons]
        omega
      simp only [hlt, if_true, hdrop, hitems, Option.map_some]

theorem littleEndian_eq (width n : Nat) :
    littleEndian width n = (List.range width).map fun i => UInt8.ofNat (n >>> (8 * i)) := by
  induction width generalizing n with
  | zero => rfl
  | succ width ih =>
    rw [littleEndian, ih, List.range_succ_eq_map, List.map_cons, List.map_map]
    refine congrArg₂ _ rfl (List.map_congr_left fun i _ => ?_)
    have hshift : n / 256 = n >>> 8 := by rw [Nat.shiftRight_eq_div_pow]
    simp only [Function.comp, hshift, ← Nat.shiftRight_add, Nat.mul_succ, Nat.add_comm]

theorem itemBytes_eq (width : DataWidth) (k : Int32) :
    Data.itemBytes width k = littleEndian width.size k.toBitVec.toNat :=
  (littleEndian_eq _ _).symm

/-- Two words, the low one first, lie as one value of twice the width. -/
theorem littleEndian_words (k : Int32) :
    littleEndian 2 (k &&& 0xffff).toBitVec.toNat ++
        littleEndian 2 ((k >>> 16) &&& 0xffff).toBitVec.toNat =
      littleEndian 4 k.toBitVec.toNat := by
  have hmask : ∀ i < 32, (0xffff : Int32).toBitVec.getLsbD i = decide (i < 16) := by decide
  have hlow : (k &&& 0xffff).toBitVec.toNat = k.toBitVec.toNat % 65536 := by
    rw [Int32.toBitVec_and, BitVec.toNat_and]
    exact Nat.and_two_pow_sub_one_eq_mod _ 16
  have hhigh : ((k >>> 16) &&& 0xffff).toBitVec = k.toBitVec >>> 16 := by
    apply BitVec.eq_of_getLsbD_eq
    intro i hi
    have hshift : (k >>> 16).toBitVec = k.toBitVec.sshiftRight 16 := by
      rw [Int32.toBitVec_shiftRight]
      rfl
    rw [Int32.toBitVec_and, BitVec.getLsbD_and, hmask i hi, hshift, BitVec.getLsbD_sshiftRight,
      BitVec.getLsbD_ushiftRight]
    by_cases h : i < 16
    · simp [h, show 16 + i < 32 by omega, show ¬ 32 ≤ i by omega]
    · have hout : k.toBitVec.getLsbD (16 + i) = false := BitVec.getLsbD_of_ge _ _ (by omega)
      simp [h, hout]
  have hbyte {m n : Nat} (h : m % 256 = n % 256) : UInt8.ofNat m = UInt8.ofNat n := by
    apply UInt8.toNat_inj.mp
    simpa using h
  rw [hlow, hhigh, BitVec.toNat_ushiftRight, Nat.shiftRight_eq_div_pow]
  simp only [littleEndian, List.cons_append, List.nil_append, List.cons.injEq, and_true]
  have hlt := k.toBitVec.isLt
  exact ⟨hbyte (by omega), hbyte (by omega), hbyte (by omega), hbyte (by omega)⟩

/-- The text is read as one term with this value. -/
def Reads (symbols : List (String × Nat)) (text : String) (k : Int32) : Prop :=
  ∃ t, IsLevel text.toList t ∧ t.value symbols = some k

theorem reads_number (symbols : List (String × Nat)) (k : Int32) :
    Reads symbols (AsmText.number k) k := by
  obtain ⟨t, ht, hk⟩ := isOperand_toString symbols k
  exact ⟨t, ht.isLevel, hk⟩

theorem reads_numbers (symbols : List (String × Nat)) (ks : List Int32) :
    List.Forall₂ (Reads symbols) (ks.map AsmText.number) ks := by
  induction ks with
  | nil => exact .nil
  | cons k ks ih => exact .cons (reads_number symbols k) ih

theorem exists_terms {symbols : List (String × Nat)} {texts : List String} {values : List Int32}
    (h : List.Forall₂ (Reads symbols) texts values) :
    ∃ terms, List.Forall₂ IsLevel (texts.map String.toList) terms ∧
      terms.mapM (value symbols) = some values := by
  induction h with
  | nil => exact ⟨[], .nil, rfl⟩
  | cons hx _ ih =>
    obtain ⟨t, ht, hk⟩ := hx
    obtain ⟨ts, hts, hks⟩ := ih
    exact ⟨t :: ts, .cons ht hts, by simp [hk, hks]⟩

/-- A directive, in its column, is told from its items. -/
theorem assemble_directive (symbols : List (String × Nat)) {directive : String} {width : Nat}
    (hd : (directive, width) ∈ widths) {rest : String}
    (hrest : ∀ c ∈ rest.toList.head?, isBlank c = false) :
    assemble symbols (Column.row directive rest) = do
      let terms ← if rest.toList = [] then some [] else items rest.toList
      let values ← terms.mapM (value symbols)
      return values.flatMap fun k => littleEndian width k.toBitVec.toNat := by
  simp only [widths, List.mem_cons, Prod.mk.injEq, List.not_mem_nil, or_false] at hd
  have htext : (Column.row directive rest).toList =
      '\t' :: (directive.toList ++ ' ' :: ' ' :: ' ' :: rest.toList) := by
    simp only [Column.row, Column.pad, String.toList_append, String.toList_ofList]
    rcases hd with ⟨rfl, -⟩ | ⟨rfl, -⟩ | ⟨rfl, -⟩ <;> rfl
  rw [← dropWhile_isBlank hrest, assemble, htext]
  rcases hd with ⟨rfl, rfl⟩ | ⟨rfl, rfl⟩ | ⟨rfl, rfl⟩ <;> rfl

theorem assemble_row {symbols : List (String × Nat)} {directive : String} {width : Nat}
    (hd : (directive, width) ∈ widths) {texts : List String} {values : List Int32}
    (h : List.Forall₂ (Reads symbols) texts values) :
    assemble symbols (Column.row directive (Column.commas texts)) =
      some (values.flatMap fun k => littleEndian width k.toBitVec.toNat) := by
  obtain ⟨terms, hterms, hvalues⟩ := exists_terms h
  have hcommas : (Column.commas texts).toList =
      [',', ' '].intercalate (texts.map String.toList) := String.toList_intercalate
  cases texts with
  | nil =>
    cases h
    exact assemble_directive symbols hd (by simp [Column.commas])
  | cons x xs =>
    obtain ⟨⟨c, hc, hblank⟩, hitems⟩ := items_commas hterms (by simp)
    rw [← hcommas] at hc hitems
    have hne : (Column.commas (x :: xs)).toList ≠ [] := by
      intro hnil
      rw [hnil] at hc
      cases hc
    rw [assemble_directive symbols hd, if_neg hne, hitems]
    · simp [hvalues]
    · intro d hd
      rwa [Option.mem_unique hd hc]

end Row

namespace AsmText

open Row

theorem reads_gccItem {l : Listing} (hl : l.Readable) {e : AddrExpr} {k : Int32} (he : l.Names e)
    (heval : e.eval (LabelRef.find? l.labels) = .ok k) : Reads l.symbols (gccItem l e k) k := by
  rw [gccItem]
  split
  · exact reads_number l.symbols k
  · exact (denotes_gccAddress hl he heval).alone

/-- The items of a row have its values. -/
theorem reads_items {l : Listing} (hl : l.Readable) {es : List AddrExpr} {values : List Int32}
    (hnames : ∀ e ∈ es, l.Names e)
    (heval : List.Forall₂ (fun e k => e.eval (LabelRef.find? l.labels) = .ok k) es values) :
    List.Forall₂ (Reads l.symbols) (List.zipWith (gccItem l) es values) values := by
  induction heval with
  | nil => exact .nil
  | cons hx _ ih =>
    obtain ⟨he, hes⟩ := List.forall_mem_cons.mp hnames
    exact .cons (reads_gccItem hl he hx) (ih hes)

/-- A printed row stands for the bytes of its line. -/
theorem assemble_gccData {l : Listing} (hl : l.Readable) {d : Data} {values : List Int32}
    {bytes : List UInt8} (hnames : ∀ e ∈ d.values, l.Names e)
    (heval : List.Forall₂ (fun e k => e.eval (LabelRef.find? l.labels) = .ok k) d.values values)
    (hbytes : d.bytes values = .ok bytes) :
    assemble l.symbols (gccData l d values) = some bytes := by
  have hitems := reads_items hl hnames heval
  have hlength := hitems.length_eq
  have hitem : Data.itemBytes d.width = fun k => littleEndian d.width.size k.toBitVec.toNat :=
    funext (itemBytes_eq d.width)
  have hbyte : (".byte", 1) ∈ widths := .head _
  have hword : (".word", 2) ∈ widths := .tail _ (.head _)
  have hlong : (".long", 4) ∈ widths := .tail _ (.tail _ (.head _))
  rw [(Data.bytes_eq_ok_iff.mp hbytes).2, hitem, gccData]
  cases hwidth : d.width with
  | byte =>
    have hpad := reads_numbers l.symbols (List.replicate (values.length % 2) 0)
    have hrow := assemble_row hbyte (List.rel_append hitems hpad)
    simp only [hlength, DataWidth.size, Nat.one_mul]
    rw [List.map_replicate] at hrow
    refine hrow.trans ?_
    rw [List.flatMap_append]
    rcases Nat.mod_two_eq_zero_or_one values.length with h | h <;> rw [h] <;> rfl
  | word =>
    have hrow := assemble_row hword hitems
    simpa [DataWidth.size] using hrow
  | dword =>
    have hpad : DataWidth.dword.size * values.length % 2 = 0 := by
      rw [DataWidth.size]
      omega
    simp only [hpad, List.replicate_zero, List.append_nil]
    split
    · have hwords := reads_numbers l.symbols
        (values.flatMap fun (k : Int32) => [k &&& 0xffff, (k >>> 16) &&& 0xffff])
      rw [assemble_row hword hwords, List.flatMap_assoc]
      simp only [List.flatMap_cons, List.flatMap_nil, List.append_nil, littleEndian_words]
      rfl
    · exact assemble_row hlong hitems

end AsmText

namespace Layout

theorem find_perm {l : Layout} {labels : List (String × Nat)} (h : labels.Perm l.labels)
    (hd : (l.labels.map Prod.fst).Nodup) : LabelRef.find? labels = l.find? := by
  funext r
  simp only [find?, LabelRef.find?, lookup_perm h.symm hd]

/-- Every line is the line of an entry. -/
theorem exists_line {l : Layout} {linker : Bool} {here : Nat} {es : List Entry} {xs : List Line}
    (h : l.lines linker here es = .ok xs) : ∀ x ∈ xs, ∃ here e, l.line linker here e = .ok x := by
  induction es generalizing here xs with
  | nil =>
    cases h
    simp
  | cons e es ih =>
    unfold lines at h
    obtain ⟨y, hy, h⟩ := bind_ok.mp h
    obtain ⟨ys, hys, h⟩ := bind_ok.mp h
    cases h
    intro x hx
    rcases List.mem_cons.mp hx with rfl | hx
    · exact ⟨here, e, hy⟩
    · exact ih hys x hx

theorem line_data {l : Layout} {linker : Bool} {here : Nat} {e : Entry} {x : Line} {d : Data}
    {values : List Int32} (h : l.line linker here e = .ok x) (hx : x.content = .data d values) :
    l.resolveData d = .ok (values, x.bytes) := by
  cases e with
  | label n =>
    cases h
    cases hx
  | instruction i =>
    simp only [line] at h
    split at h
    · cases h
      cases hx
    · cases h
  | data row =>
    simp only [line] at h
    split at h
    · next hrow =>
      cases h
      cases hx
      exact hrow
    · cases h

end Layout

/-- Where the printed names are identifiers and no two are alike, an address expression that has
printed names only is printed as what reads as a term of its value, and a row of data that has such
expressions only as what reads as the bytes of its line. -/
theorem symbolic_text_denotes (l : Listing) (hl : l.Readable) :
    (∀ e k, l.Names e → e.eval (LabelRef.find? l.labels) = .ok k →
      ∃ t, Term.read (AsmText.gccAddress l e) = some t ∧ t.value l.symbols = some k) ∧
    ∀ es linker, (Layout.run es).resolve linker = .ok l → ∀ s ∈ l.sections, ∀ x ∈ s.lines,
      ∀ d values, x.content = .data d values → (∀ e ∈ d.values, l.Names e) →
        ∃ text, AsmText.line .gcc l x = some text ∧
          Row.assemble l.symbols text = some x.bytes := by
  refine ⟨?_, ?_⟩
  · intro e k hnames heval
    obtain ⟨t, ht, hk⟩ := (AsmText.denotes_gccAddress hl hnames heval).alone
    exact ⟨t, Term.read_eq ht, hk⟩
  · intro es linker hresolve s hs x hx d values hcontent hnames
    have hsound := Layout.sound_run es
    obtain ⟨hperm, -⟩ := Layout.labels_perm hsound hresolve
    obtain ⟨b, -, hb⟩ := mem_of_forall₂ (Layout.resolve_ok hresolve).1 hs
    obtain ⟨here, entry, hline⟩ := Layout.exists_line (Layout.resolveBlock_lines hb) x hx
    obtain ⟨heval, hbytes⟩ := Layout.resolveData_ok (Layout.line_data hline hcontent)
    rw [← Layout.find_perm hperm hsound.distinct] at heval
    refine ⟨AsmText.gccData l d values, ?_, AsmText.assemble_gccData hl hnames heval hbytes⟩
    simp [AsmText.line, hcontent, AsmText.data]

namespace SymbolSample

def here : Location := .point "a" 1 1

def table : AddrExpr := .address (.plain "table")

/-- `-table - -3` -/
def behind : AddrExpr := .binary (.arith .sub) (.negate table) (.const (-3))

def bytes : Data := ⟨.byte, [table.high, table.low, .const (-1)]⟩

def longs : Data := ⟨.dword, [.const 7, .address ⟨some "main@loop@3", "loop"⟩, behind]⟩

def calls : List Emission :=
  [.org 300, .label ⟨here, "?1"⟩, .data ⟨here, bytes⟩, .label ⟨here, "table"⟩,
    .data ⟨here, longs⟩, .label ⟨here, "main@loop@3"⟩]

def longLine : Line :=
  ⟨304, here, .data longs [7, 316, -301], [7, 0, 0, 0, 60, 1, 0, 0, 211, 254, 255, 255]⟩

def block : Section where
  origin := 300
  lines := [⟨300, here, .label "?1", []⟩, ⟨300, here, .data bytes [1, 48, -1], [1, 48, 255, 0]⟩,
    ⟨304, here, .label "table", []⟩, longLine, ⟨316, here, .label "main@loop@3", []⟩]

def listing : Listing where
  sections := [block]
  labels := [("?1", 300), ("table", 304), ("main@loop@3", 316)]

theorem resolve_calls : (Layout.run calls).resolve false = .ok listing := by
  simp only [Layout.resolve, mergeSort_eq_foldr Layout.labelBefore_trans Layout.labelBefore_total]
  with_unfolding_all rfl

theorem readable_listing : listing.Readable where
  identifiers := by decide
  distinct := by decide

theorem names_longs : ∀ e ∈ longs.values, listing.Names e := by
  unfold Listing.Names
  decide

end SymbolSample

open SymbolSample in
/-- The row is printed as `.long 7, _main_loop_3, -(table)--3`. -/
theorem symbolic_text_denotes_longs :
    (Layout.run calls).resolve false = .ok listing ∧
    (∃ t, Term.read (AsmText.gccAddress listing behind) = some t ∧
      t.value listing.symbols = some (-301)) ∧
    ∃ text, AsmText.line .gcc listing longLine = some text ∧
      Row.assemble listing.symbols text = some longLine.bytes := by
  obtain ⟨hterm, hrow⟩ := symbolic_text_denotes listing readable_listing
  exact ⟨resolve_calls, hterm behind (-301) (names_longs behind (by simp [longs])) rfl,
    hrow calls false resolve_calls block (.head _) longLine (by simp [block]) longs _ rfl
      names_longs⟩

end Avr
