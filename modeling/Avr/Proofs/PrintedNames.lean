import Avr.Proofs.LabelOrigins
import Avr.Proofs.SymbolicText

namespace Avr

open AsmText

/-- Spelled as the source spells names: with letters, digits and `_`. -/
def IsWord (name : String) : Prop := ∀ c ∈ name.toList, Term.isNameChar c

instance (name : String) : Decidable (IsWord name) :=
  decidable_of_iff (name.toList.all Term.isNameChar) List.all_eq_true

theorem IsWord.not_mem {name : String} (h : IsWord name) {c : Char}
    (hc : Term.isNameChar c = false) : c ∉ name.toList := by
  intro hmem
  rw [h c hmem] at hc
  cases hc

namespace Program

/-- Procedures and labels are named by words. -/
structure WordNames (p : Program) : Prop where
  procedures : ∀ q ∈ p.procedures, IsWord q.name.value
  labels : ∀ name ∈ p.labels, IsWord name
  globals : ∀ q ∈ p.procedures, ∀ name ∈ q.globals, IsWord name
  inners : ∀ q ∈ p.procedures, ∀ name ∈ q.inners, IsWord name

theorem WordNames.names {p : Program} (h : p.WordNames) {m : Mark} (hm : m.IsFrom p) :
    ∀ name ∈ m.names, IsWord name := by
  have hstanding {name : String} (h' : name ∈ p.standing.map (·.name.value)) : IsWord name := by
    obtain ⟨q, hq, rfl⟩ := List.mem_map.mp h'
    exact h.procedures q (List.mem_filter.mp hq).1
  intro name hname
  cases m with
  | global g =>
    obtain rfl := List.mem_singleton.mp hname
    rcases List.mem_append.mp hm with hm | hm
    · rcases List.mem_append.mp hm with hm | hm
      · exact h.labels _ hm
      · exact hstanding hm
    · obtain ⟨q, hq, hm⟩ := List.mem_flatMap.mp hm
      exact h.globals q hq _ hm
  | inner stem x =>
    obtain ⟨hproc, hx⟩ := hm
    rcases List.mem_pair.mp hname with rfl | rfl
    · exact hstanding hproc
    · obtain ⟨q, hq, hx⟩ := List.mem_flatMap.mp hx
      exact h.inners q hq _ hx
  | construct stem kind line way =>
    rw [List.mem_singleton.mp hname]
    exact hstanding hm
  | probe n stops => cases hname

end Program

/-- The pieces of a text that underscores hold together. -/
def pieces (text : String) : List (List Char) := text.toList.splitOn '_'

theorem pieces_inj {s t : String} (h : pieces s = pieces t) : s = t := by
  have h := congrArg (List.intercalate ['_']) h
  rw [pieces, pieces, List.intercalate_splitOn, List.intercalate_splitOn] at h
  exact String.toList_inj.mp h

theorem pieces_of_not_mem {s : String} (h : '_' ∉ s.toList) : pieces s = [s.toList] :=
  List.splitOn_eq_singleton h

theorem all_isDigit_toString (n : Nat) : (toString n).toList.all Char.isDigit :=
  List.all_eq_true.mpr fun _ => Numeral.isDigit_of_mem_toString

theorem pieces_number (n : Nat) : pieces (toString n) = [(toString n).toList] := by
  apply pieces_of_not_mem
  intro h
  exact absurd (Numeral.isDigit_of_mem_toString h) (by decide)

/-- Printing an `@` as `_` only adds to the underscores that are there. -/
theorem splitOn_printed {ps : List (List Char)} (hne : ps ≠ []) (h : ∀ p ∈ ps, '@' ∉ p) :
    ((['@'].intercalate ps).map fun c => if c = '@' then '_' else c).splitOn '_' =
      ps.flatMap (List.splitOn '_') := by
  have hsame {p : List Char} (hp : '@' ∉ p) : p.map (fun c => if c = '@' then '_' else c) = p := by
    rw [List.map_congr_left (g := id), List.map_id]
    intro c hc
    exact if_neg (ne_of_mem_of_not_mem hc hp)
  induction ps with
  | nil => exact absurd rfl hne
  | cons p ps ih =>
    obtain ⟨hp, hps⟩ := List.forall_mem_cons.mp h
    cases ps with
    | nil => simp [hsame hp]
    | cons q qs =>
      rw [List.intercalate_cons_cons, List.map_append, List.map_append, hsame hp]
      simp only [List.map_cons, List.map_nil, if_true, List.append_assoc, List.singleton_append]
      rw [List.splitOn_append_cons_self, ih (by simp) hps]
      simp

namespace Kind

/-- Whatever stands before it, a kind can be read off the end. -/
theorem eq_of_pieces_end {j k : Kind} (h : pieces j.text <:+ pieces k.text) : j = k := by
  revert h
  cases j <;> cases k <;> decide

end Kind

namespace Turn

/-- The last piece of a turn. -/
def closing : Turn → String
  | and1 | notAnd1 => "and1"
  | and2 | notAnd2 => "and2"
  | or1 | notOr1 => "or1"
  | or2 | notOr2 => "or2"
  | notNot1 => "not1"
  | out => "end"

/-- Whatever comes after it, a turn can be read off the front. -/
theorem eq_of_pieces_front {t u : Turn} (h : pieces t.text <+: pieces u.text) : t = u := by
  revert h
  cases t <;> cases u <;> decide

theorem pieces_eq (t : Turn) :
    pieces t.text = (pieces t.text).dropLast ++ [t.closing.toList] := by
  cases t <;> decide

theorem not_number (t : Turn) : ∀ piece ∈ pieces t.text, piece.all Char.isDigit = false := by
  cases t <;> decide

/-- A way can be read piece by piece. -/
theorem flatMap_pieces_inj {way other : List Turn}
    (h : (way.map text).flatMap pieces = (other.map text).flatMap pieces) : way = other := by
  have hne (t : Turn) (us : List Turn) : [] ≠ ((t :: us).map text).flatMap pieces := by
    simp [pieces]
  induction way generalizing other with
  | nil =>
    cases other with
    | nil => rfl
    | cons u us => exact (hne u us h).elim
  | cons t ts ih =>
    cases other with
    | nil => exact (hne t ts h.symm).elim
    | cons u us =>
      simp only [List.map_cons, List.flatMap_cons] at h
      have htu : t = u := by
        rcases List.prefix_or_prefix_of_prefix (List.prefix_append _ _) (h ▸ List.prefix_append _ _)
          with hpre | hpre
        · exact (eq_of_pieces_front hpre).symm
        · exact eq_of_pieces_front hpre
      subst htu
      rw [ih (List.append_cancel_left h)]

end Turn

/-- A local label that is one piece, and cannot be taken for the end of a generated name. -/
def IsTidy (name : String) : Prop :=
  '_' ∉ name.toList ∧ name.toList.all Char.isDigit = false ∧ name ∉ Turn.all.map Turn.closing

instance (name : String) : Decidable (IsTidy name) := inferInstanceAs (Decidable (_ ∧ _))

/-- The last of the elements with a property can be found from the end. -/
theorem append_cons_inj_of_last {P : α → Prop} {a b : α} {xs ys zs ws : List α} (ha : P a)
    (hb : P b) (hzs : ∀ z ∈ zs, ¬ P z) (hws : ∀ w ∈ ws, ¬ P w)
    (h : xs ++ a :: zs = ys ++ b :: ws) : xs = ys ∧ a = b ∧ zs = ws := by
  rcases List.append_eq_append_iff.mp h with ⟨us, rfl, hus⟩ | ⟨us, rfl, hus⟩
  · cases us with
    | nil => exact ⟨by simp, List.cons.inj hus⟩
    | cons u us =>
      obtain ⟨-, rfl⟩ := List.cons.inj hus
      exact absurd hb (hzs b (by simp))
  · cases us with
    | nil => exact ⟨by simp, (List.cons.inj hus).1.symm, (List.cons.inj hus).2.symm⟩
    | cons u us =>
      obtain ⟨-, rfl⟩ := List.cons.inj hus
      exact absurd ha (hws a (by simp))

namespace Mark

/-- A label of the source that is not printed like another. -/
def Tidy : Mark → Prop
  | global name => name.toList.head? ≠ some '_'
  | inner _ name => IsTidy name
  | construct .. => True
  | probe .. => False

theorem pieces_gccName {m : Mark} (hnames : ∀ name ∈ m.names, '@' ∉ name.toList)
    (hat : '@' ∈ m.text.toList) : pieces (gccName m.text) = [] :: m.parts.flatMap pieces := by
  have hne : m.parts.map String.toList ≠ [] := by cases m <;> simp [parts]
  have hparts : ∀ p ∈ m.parts.map String.toList, '@' ∉ p :=
    List.forall_mem_map.mpr (at_not_mem_parts hnames)
  have htext : m.text.toList = ['@'].intercalate (m.parts.map String.toList) :=
    String.toList_intercalate
  rw [gccName, if_pos hat, pieces, String.toList_append, htext]
  change ([] ++ '_' :: (String.ofList _).toList).splitOn '_' = _
  rw [String.toList_ofList, List.splitOn_append_cons_self, splitOn_printed hne hparts,
    List.flatMap_map]
  rfl

/-- What has no `@` is printed as it is. -/
theorem gccName_text {m : Mark} (hnames : ∀ name ∈ m.names, '@' ∉ name.toList)
    (hparts : m.parts.length = 1) : gccName m.text = m.text := by
  obtain ⟨part, hpart⟩ := List.length_eq_one_iff.mp hparts
  have hat := at_not_mem_parts hnames part (by simp [hpart])
  have htext : m.text = part := by
    rw [text, hpart]
    exact String.intercalate_singleton
  rw [gccName, if_neg (by rwa [htext])]

theorem head_gccName {name : String} (hat : '@' ∈ name.toList) :
    (gccName name).toList.head? = some '_' := by
  simp [gccName, hat]

theorem pieces_construct (stem : Stem) (kind : Kind) (line : Nat) (way : List Turn) :
    (construct stem kind line way).parts.flatMap pieces = (pieces stem.text ++ pieces kind.text) ++
      (toString line).toList :: (way.map Turn.text).flatMap pieces := by
  rw [parts, List.flatMap_cons, List.flatMap_cons, List.flatMap_cons, pieces_number]
  simp only [List.append_assoc, List.singleton_append]

/-- Two constructs have the same pieces only if they are printed from the same parts: the line is
the last number, turns follow it, and the kind stands before it. -/
theorem construct_parts_eq {s t : Stem} {j k : Kind} {line line' : Nat} {way way' : List Turn}
    (h : (construct s j line way).parts.flatMap pieces =
      (construct t k line' way').parts.flatMap pieces) :
    (construct s j line way).parts = (construct t k line' way').parts := by
  have hway (way : List Turn) :
      ∀ piece ∈ (way.map Turn.text).flatMap pieces, ¬ piece.all Char.isDigit := by
    intro piece hpiece
    obtain ⟨_, ht, hpiece⟩ := List.mem_flatMap.mp hpiece
    obtain ⟨t, _, rfl⟩ := List.mem_map.mp ht
    simp [t.not_number piece hpiece]
  rw [pieces_construct, pieces_construct] at h
  obtain ⟨hstem, hline, hturns⟩ := append_cons_inj_of_last (P := (List.all · Char.isDigit))
    (all_isDigit_toString line) (all_isDigit_toString line') (hway way) (hway way') h
  have hkind : j = k := by
    rcases List.suffix_or_suffix_of_suffix (List.suffix_append _ _)
      (hstem ▸ List.suffix_append _ _) with hsuf | hsuf
    · exact (Kind.eq_of_pieces_end hsuf).symm
    · exact Kind.eq_of_pieces_end hsuf
  subst hkind
  rw [Turn.flatMap_pieces_inj hturns, Numeral.toString_inj (String.toList_inj.mp hline)]
  rw [parts, parts, pieces_inj (List.append_cancel_right hstem)]

/-- A construct ends in a number or in what a turn ends in. -/
theorem construct_last (s : Stem) (kind : Kind) (line : Nat) (way : List Turn) :
    ∃ before last, (construct s kind line way).parts.flatMap pieces = before ++ [last] ∧
      (last.all Char.isDigit ∨ ∃ t : Turn, last = t.closing.toList) := by
  rw [pieces_construct]
  rcases List.eq_nil_or_concat way with rfl | ⟨ts, t, rfl⟩
  · exact ⟨_, _, rfl, .inl (all_isDigit_toString line)⟩
  · refine ⟨pieces s.text ++ pieces kind.text ++ (toString line).toList ::
      ((ts.map Turn.text).flatMap pieces ++ (pieces t.text).dropLast), _, ?_, .inr ⟨t, rfl⟩⟩
    have ht := t.pieces_eq
    simp only [List.concat_eq_append, List.map_append, List.map_cons, List.map_nil,
      List.flatMap_append, List.flatMap_cons, List.flatMap_nil, List.append_nil]
    rw [ht]
    simp

theorem inner_ne_construct {s t : Stem} {name : String} (h : IsTidy name) (kind : Kind)
    (line : Nat) (way : List Turn) : (inner s name).parts.flatMap pieces ≠
      (construct t kind line way).parts.flatMap pieces := by
  intro heq
  obtain ⟨before, last, hlast, hend⟩ := construct_last t kind line way
  have hparts : (inner s name).parts.flatMap pieces = pieces s.text ++ [name.toList] := by
    simp [parts, pieces_of_not_mem h.1]
  rw [hlast, hparts] at heq
  obtain ⟨-, hname⟩ := List.append_inj' heq rfl
  obtain rfl := List.singleton_inj.mp hname
  rcases hend with hdigits | ⟨u, hname⟩
  · rw [h.2.1] at hdigits
    cases hdigits
  · rw [String.toList_inj.mp hname] at h
    exact h.2.2 (List.mem_map.mpr ⟨u, u.mem_all, rfl⟩)

theorem inner_parts_eq {s t : Stem} {x y : String} (hx : IsTidy x) (hy : IsTidy y)
    (h : (inner s x).parts.flatMap pieces = (inner t y).parts.flatMap pieces) :
    (inner s x).parts = (inner t y).parts := by
  simp only [parts, List.flatMap_cons, List.flatMap_nil, List.append_nil, pieces_of_not_mem hx.1,
    pieces_of_not_mem hy.1] at h
  obtain ⟨hstem, hname⟩ := List.append_inj' h rfl
  rw [parts, parts, pieces_inj hstem, String.toList_inj.mp (List.singleton_inj.mp hname)]

/-- Tidy labels of a body have the same pieces only if they have the same parts. -/
theorem parts_eq_of_pieces {m n : Mark} (hm : m.Tidy) (hn : n.Tidy) (hmparts : m.parts.length ≠ 1)
    (hnparts : n.parts.length ≠ 1) (h : m.parts.flatMap pieces = n.parts.flatMap pieces) :
    m.parts = n.parts := by
  cases m with
  | global x => exact absurd rfl hmparts
  | probe => exact hm.elim
  | inner s x =>
    cases n with
    | global y => exact absurd rfl hnparts
    | probe => exact hn.elim
    | inner t y => exact inner_parts_eq hm hn h
    | construct t k line way => exact absurd h (inner_ne_construct hm k line way)
  | construct s j line way =>
    cases n with
    | global y => exact absurd rfl hnparts
    | probe => exact hn.elim
    | inner t y => exact absurd h.symm (inner_ne_construct hn j line way)
    | construct t k line' way' => exact construct_parts_eq h

theorem at_mem_text {m : Mark} (h : m.parts.length ≠ 1) : '@' ∈ m.text.toList := by
  cases m with
  | global x => exact absurd rfl h
  | probe => exact absurd rfl h
  | inner s x => simp [text_inner]
  | construct s k line way => simp [text, parts]

/-- A tidy label that is printed as it is does not look like one that is not. -/
theorem Tidy.head {m : Mark} (h : m.Tidy) (hparts : m.parts.length = 1) :
    m.text.toList.head? ≠ some '_' := by
  cases m with
  | global x =>
    rw [text_global]
    exact h
  | probe => exact h.elim
  | inner s x => simp [parts] at hparts
  | construct s k line way => simp [parts] at hparts

/-- Tidy labels are printed alike only if they are the same. -/
theorem text_eq_of_gccName {m n : Mark} (hm : m.Tidy) (hn : n.Tidy)
    (hmnames : ∀ name ∈ m.names, '@' ∉ name.toList) (hnnames : ∀ name ∈ n.names, '@' ∉ name.toList)
    (h : gccName m.text = gccName n.text) : m.text = n.text := by
  by_cases hmparts : m.parts.length = 1 <;> by_cases hnparts : n.parts.length = 1
  · rwa [gccName_text hmnames hmparts, gccName_text hnnames hnparts] at h
  · have hhead := hm.head hmparts
    rw [gccName_text hmnames hmparts] at h
    rw [h] at hhead
    exact absurd (head_gccName (at_mem_text hnparts)) hhead
  · have hhead := hn.head hnparts
    rw [gccName_text hnnames hnparts] at h
    rw [← h] at hhead
    exact absurd (head_gccName (at_mem_text hmparts)) hhead
  · have hpieces := congrArg pieces h
    rw [pieces_gccName hmnames (at_mem_text hmparts), pieces_gccName hnnames (at_mem_text hnparts)]
      at hpieces
    rw [text, text, parts_eq_of_pieces hm hn hmparts hnparts (List.cons.inj hpieces).2]

end Mark

namespace AsmText

/-- The symbol that a line of the text defines. What stands behind a tab is an instruction or a
directive. -/
def definition? (line : String) : Option String :=
  if line.toList.head? ≠ some '\t' ∧ line.toList.getLast? = some ':' then
    some (String.ofList line.toList.dropLast)
  else none

theorem definition_row (directive rest : String) :
    definition? (Column.row directive rest) = none := by
  simp [definition?, Column.row]

theorem definition_instruction (l : Listing) (source resolved : Instruction) :
    definition? (instruction .gcc l source resolved) = none := by
  unfold instruction
  dsimp only
  split
  · exact definition_row _ _
  · split
    · simp [definition?]
    · exact definition_row _ _

theorem definition_data (l : Listing) (source : Data) (values : List Int32) :
    definition? (data .gcc l source values) = none := by
  simp only [data, gccData]
  split
  · exact definition_row _ _
  · exact definition_row _ _
  · split <;> exact definition_row _ _

theorem definition_label {name : String} (h : name.toList.head? ≠ some '\t') :
    definition? (name ++ ":") = some name := by
  have hhead : (name ++ ":").toList.head? ≠ some '\t' := by
    cases hname : name.toList with
    | nil => simp [hname]
    | cons c cs => simpa [hname] using h
  have hlist : (name ++ ":").toList = name.toList ++ [':'] := by simp
  rw [definition?, if_pos ⟨hhead, by simp [hlist]⟩, hlist, List.dropLast_concat,
    String.ofList_toList]

theorem definition_line {l : Listing} {x : Line}
    (h : ∀ label ∈ x.label?, (gccName label.1).toList.head? ≠ some '\t') :
    (line .gcc l x).bind definition? = (x.label?.filter (!isProbe ·.1)).map (gccName ·.1) := by
  unfold Line.label? at h ⊢
  unfold line
  cases hx : x.content with
  | instruction source resolved => simp [definition_instruction]
  | data source values => simp [definition_data]
  | label name =>
    rw [hx] at h
    have hname := definition_label (h _ rfl)
    cases hprobe : isProbe name with
    | true => simp [hprobe]
    | false => simpa [hprobe, labelName, Option.filter] using hname

theorem definitions_section {l : Listing} {s : Section} (first : Bool)
    (h : ∀ label ∈ s.labels, (gccName label.1).toList.head? ≠ some '\t') :
    (sectionLines .gcc l first s).filterMap definition? =
      (s.labels.filter (!isProbe ·.1)).map (gccName ·.1) := by
  have horigin : (if first ∧ s.origin = 0 then []
      else [Column.row ".org" (toString s.origin)]).filterMap definition? = [] := by
    split
    · rfl
    · simp [definition_row]
  have hlines : ∀ x ∈ s.lines, (line .gcc l x).bind definition? =
      (x.label?.filter (!isProbe ·.1)).map (gccName ·.1) := by
    intro x hx
    exact definition_line fun label hlabel => h label (List.mem_filterMap.mpr ⟨x, hx, hlabel⟩)
  rw [sectionLines, List.filterMap_append, horigin, List.nil_append, List.filterMap_filterMap,
    List.filterMap_congr hlines, Section.labels, List.filter_filterMap, List.map_filterMap]

/-- The text defines a symbol for every label that it prints, and no other. -/
theorem definitions_listing {l : Listing}
    (h : ∀ label ∈ l.labelLines, (gccName label.1).toList.head? ≠ some '\t') :
    (listingLines .gcc l).filterMap definition? =
      (l.labelLines.filter (!isProbe ·.1)).map (gccName ·.1) := by
  have hsection {s : Section} (hs : s ∈ l.sections) (first : Bool) :
      (sectionLines .gcc l first s).filterMap definition? =
        (s.labels.filter (!isProbe ·.1)).map (gccName ·.1) :=
    definitions_section first fun label hlabel => h label (List.mem_flatMap.mpr ⟨s, hs, hlabel⟩)
  rw [listingLines, Listing.labelLines]
  split
  · next hnil => simp [hnil]
  · next s ss hcons =>
    rw [hcons] at hsection ⊢
    rw [List.filterMap_append, hsection List.mem_cons_self, List.flatMap_cons, List.filter_append,
      List.map_append, List.filterMap_flatMap, List.filter_flatMap, List.map_flatMap]
    refine congrArg _ (List.flatMap_congr fun t ht => ?_)
    exact hsection (List.mem_cons_of_mem _ ht) false

end AsmText

namespace Listing

/-- The labels that are printed. -/
def printed (l : Listing) : List String := (l.labels.map Prod.fst).filter (!isProbe ·)

theorem map_symbols (l : Listing) : l.symbols.map Prod.fst = l.printed.map gccName := by
  simp [symbols, printed, List.filter_map, Function.comp_def]

end Listing

namespace Program

/-- A label that the source names in a way that its printed name may be that of another: a global
name with an underscore in front, or a local label that is not tidy. -/
def Confusing (p : Program) (label : String) : Prop :=
  label ∈ p.globalNames ∧ label.toList.head? = some '_' ∨
    ∃ (stem : Stem) (name : String), label = stem.text ++ "@" ++ name ∧
      stem.procedure ∈ p.standing.map (·.name.value) ∧
      name ∈ p.procedures.flatMap Procedure.inners ∧ ¬ IsTidy name

theorem confusing_of_not_tidy {p : Program} {m : Mark} (hm : m.IsFrom p)
    (hprobe : isProbe m.text = false) (h : ¬ m.Tidy) : p.Confusing m.text := by
  cases m with
  | global name =>
    rw [Mark.text_global]
    exact .inl ⟨hm, not_not.mp h⟩
  | inner stem name =>
    rw [Mark.text_inner]
    exact .inr ⟨stem, name, rfl, hm.1, hm.2, h⟩
  | construct => exact absurd trivial h
  | probe n stops =>
    rw [Mark.text_probe, isProbe, Mark.head_probeName] at hprobe
    cases hprobe

end Program

theorem Mark.head_ne_tab {m : Mark} (h : ∀ name ∈ m.names, IsWord name) :
    (gccName m.text).toList.head? ≠ some '\t' := by
  have hnames : ∀ name ∈ m.names, '@' ∉ name.toList := fun name hn => (h name hn).not_mem rfl
  by_cases hparts : m.parts.length = 1
  · rw [gccName_text hnames hparts]
    cases m with
    | global name =>
      intro hhead
      rw [text_global] at hhead
      exact (h name (by simp [names])).not_mem rfl (List.mem_of_head? hhead)
    | probe n stops =>
      rw [text_probe, head_probeName]
      decide
    | inner | construct => simp [parts] at hparts
  · rw [head_gccName (at_mem_text hparts)]
    decide

/-- Two labels are printed alike only if the source names one of them confusingly. The text defines
a symbol twice only if that happens, and otherwise the name of a reference stands for the address
that the reference was resolved to. -/
theorem printed_names_clash_by_source {device : Device} {program : Program} {formats : List Format}
    {options : OutputOptions} {c : Compiled} {listing : Listing} (hnames : program.WordNames)
    (hcompile : compile device program (.ofFormats formats options) = .ok c)
    (hresolve : c.outputs.layout.resolve Format.gcc.linksExternals = .ok listing) :
    (∀ x ∈ listing.printed, ∀ y ∈ listing.printed, x ≠ y → gccName x = gccName y →
        program.Confusing x ∨ program.Confusing y) ∧
      (((listingLines .gcc listing).filterMap definition?).Nodup ↔
        ∀ x ∈ listing.printed, ∀ y ∈ listing.printed, gccName x = gccName y → x = y) ∧
      (((listingLines .gcc listing).filterMap definition?).Nodup →
        ∀ r a, c.outputs.layout.find? r = some a → isProbe (listing.target r) = false →
          listing.symbols.lookup (gccName (listing.target r)) = some a) := by
  obtain ⟨hsound, -⟩ := compile_layout hcompile
  obtain ⟨hperm, hlines⟩ := Layout.labels_perm hsound hresolve
  have hmark : ∀ n ∈ listing.labels.map Prod.fst, ∃ m : Mark, m.IsFrom program ∧ m.text = n := by
    intro n hn
    exact compile_labels_isFrom hcompile n ((hperm.map Prod.fst).mem_iff.mp hn)
  have hhead : ∀ label ∈ listing.labelLines, (gccName label.1).toList.head? ≠ some '\t' := by
    intro label hlabel
    obtain ⟨m, hm, htext⟩ := hmark label.1 (List.mem_map_of_mem (hlines.mem_iff.mpr hlabel))
    rw [← htext]
    exact Mark.head_ne_tab (hnames.names hm)
  have hdefinitions : ((listingLines .gcc listing).filterMap definition?).Perm
      (listing.symbols.map Prod.fst) := by
    rw [definitions_listing hhead, Listing.symbols, List.map_map]
    exact (hlines.symm.filter _).map _
  have hdistinct : (listing.labels.map Prod.fst).Nodup :=
    (hperm.map Prod.fst).nodup_iff.mpr hsound.distinct
  refine ⟨?_, ?_, ?_⟩
  · intro x hx y hy hne hprinted
    obtain ⟨hx, hxprobe⟩ := List.mem_filter.mp hx
    obtain ⟨hy, hyprobe⟩ := List.mem_filter.mp hy
    obtain ⟨m, hm, rfl⟩ := hmark x hx
    obtain ⟨n, hn, rfl⟩ := hmark y hy
    by_cases hmtidy : m.Tidy
    · by_cases hntidy : n.Tidy
      · refine absurd (Mark.text_eq_of_gccName hmtidy hntidy ?_ ?_ hprinted) hne
        · exact fun name h => (hnames.names hm name h).not_mem rfl
        · exact fun name h => (hnames.names hn name h).not_mem rfl
      · exact .inr (Program.confusing_of_not_tidy hn (by simpa using hyprobe) hntidy)
    · exact .inl (Program.confusing_of_not_tidy hm (by simpa using hxprobe) hmtidy)
  · rw [hdefinitions.nodup_iff, Listing.map_symbols]
    exact List.nodup_map_iff_inj_on (hdistinct.filter _)
  · intro hnodup r a ha hprobe
    rw [hdefinitions.nodup_iff] at hnodup
    rw [← Layout.find_perm hperm hsound.distinct] at ha
    exact (lookup_mem hnodup).mpr (Listing.mem_symbols ha hprobe)

namespace ClashSample

open Sample

/-- A procedure that goes back to its one label. -/
def spin (name label : String) : Procedure :=
  ⟨at1 name, [], [at1 (.label label false), at1 (.goto label)], false⟩

def program : Program where
  vectors := none
  items := [at1 (.procedure (spin "a_b" "c")), at1 (.procedure (spin "a" "b_c"))]

def listing : Checked Listing := do
  let c ← compile sampleDevice program (.ofFormats [.gcc] {})
  c.outputs.layout.resolve Format.gcc.linksExternals

theorem listing_labels : listing.toOption.map Listing.labelLines =
    some [("a_b", 0), ("a_b@c", 0), ("a", 2), ("a@b_c", 2)] := by
  decide +kernel

end ClashSample

open ClashSample in
/-- Both labels are printed as `_a_b_c`, because one of them has an underscore. -/
theorem printed_names_clash_by_source_twice :
    ∃ c listing, compile sampleDevice ClashSample.program (.ofFormats [.gcc] {}) = .ok c ∧
      c.outputs.layout.resolve Format.gcc.linksExternals = .ok listing ∧
      "a_b@c" ∈ listing.printed ∧ "a@b_c" ∈ listing.printed ∧
      gccName "a_b@c" = "_a_b_c" ∧ gccName "a@b_c" = "_a_b_c" ∧
      (ClashSample.program.Confusing "a_b@c" ∨ ClashSample.program.Confusing "a@b_c") ∧
      ¬ ((listingLines .gcc listing).filterMap definition?).Nodup := by
  obtain ⟨listing, hl, hlabels⟩ := Option.map_eq_some_iff.mp listing_labels
  have hl : ClashSample.listing = .ok listing := Outcome.eq_ok_of_toOption hl
  obtain ⟨c, hc, hr⟩ := Outcome.bind_ok.mp hl
  have hnames : ClashSample.program.WordNames :=
    ⟨by decide, by decide, by decide, by decide⟩
  obtain ⟨hclash, hnodup, -⟩ := printed_names_clash_by_source hnames hc hr
  obtain ⟨-, hperm⟩ := Layout.labels_perm (compile_layout hc).1 hr
  have hlines (n : String) : n ∈ listing.labels.map Prod.fst ↔
      n ∈ ["a_b", "a_b@c", "a", "a@b_c"] := by
    rw [(hperm.map Prod.fst).mem_iff, hlabels]
    rfl
  have hx : "a_b@c" ∈ listing.printed :=
    List.mem_filter.mpr ⟨(hlines _).mpr (by decide), by decide⟩
  have hy : "a@b_c" ∈ listing.printed :=
    List.mem_filter.mpr ⟨(hlines _).mpr (by decide), by decide⟩
  have hxname : gccName "a_b@c" = "_a_b_c" := by decide
  have hyname : gccName "a@b_c" = "_a_b_c" := by decide
  refine ⟨c, listing, hc, hr, hx, hy, hxname, hyname, ?_, ?_⟩
  · exact hclash _ hx _ hy (by decide) (hxname.trans hyname.symm)
  · intro h
    have hsame := hnodup.mp h _ hx _ hy (hxname.trans hyname.symm)
    exact absurd hsame (by decide)

end Avr
