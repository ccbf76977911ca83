import Mathlib.Data.Int.ModEq
import Mathlib.Data.Nat.Digits.Defs
import Mathlib.Tactic.NormNum
import Avr.Proofs.SecondPass

namespace Avr

open Outcome

theorem Outcome.mapM_of_forall₂ {f : α → Except ε β} {xs : List α} {ys : List β}
    (h : List.Forall₂ (fun x y => f x = .ok y) xs ys) : xs.mapM f = .ok ys := by
  induction h with
  | nil => rfl
  | cons hx _ ih =>
    simp only [List.mapM_cons, bind_ok, pure_ok]
    exact ⟨_, hx, _, ih, rfl⟩

/-- A width takes the values that it can hold with a sign, or without one. -/
theorem DataWidth.fits_iff (width : DataWidth) (k : Int32) :
    width.fits k ↔
      -(2 : Int) ^ (8 * width.size - 1) ≤ k.toInt ∧ k.toInt < 2 ^ (8 * width.size) := by
  cases width with
  | byte =>
    have hlow : (-0x80 : Int32).toInt = -128 := by decide
    have hhigh : (0xff : Int32).toInt = 255 := by decide
    simp only [fits, size, Bool.and_eq_true, decide_eq_true_eq, Int32.le_iff_toInt_le, hlow, hhigh]
    norm_num
    omega
  | word =>
    have hlow : (-0x8000 : Int32).toInt = -32768 := by decide
    have hhigh : (0xffff : Int32).toInt = 65535 := by decide
    simp only [fits, size, Bool.and_eq_true, decide_eq_true_eq, Int32.le_iff_toInt_le, hlow, hhigh]
    norm_num
    omega
  | dword =>
    have hlow := k.le_toInt
    have hhigh := k.toInt_lt
    simp only [fits, size]
    norm_num at hlow hhigh ⊢
    omega

namespace Data

/-- The number in field `i` of a row, where every field has `width` bytes, the low byte first. -/
def field (width i : Nat) (bs : List UInt8) : Nat :=
  Nat.ofDigits 256 (((bs.drop (width * i)).take width).map UInt8.toNat)

variable {d : Data} {values : List Int32} {bs : List UInt8}

theorem length_itemBytes (width : DataWidth) (k : Int32) :
    (itemBytes width k).length = width.size := by
  simp [itemBytes]

/-- The bytes of an item make up the value modulo what they can hold. -/
theorem ofDigits_itemBytes (width : DataWidth) (k : Int32) :
    ((Nat.ofDigits 256 ((itemBytes width k).map UInt8.toNat) : Nat) : Int) =
      k.toInt % 2 ^ (8 * width.size) := by
  have hnat : Nat.ofDigits 256 ((itemBytes width k).map UInt8.toNat) =
      k.toBitVec.toNat % 2 ^ (8 * width.size) := by
    cases width <;>
      simp only [itemBytes, DataWidth.size, List.range_succ, List.range_zero, List.nil_append,
        List.cons_append, List.map_cons, List.map_nil, Nat.ofDigits_cons, Nat.ofDigits_nil,
        UInt8.toNat_ofNat', Nat.shiftRight_eq_div_pow] <;>
      omega
  have hint : (k.toBitVec.toNat : Int) % 2 ^ 32 = k.toInt % 2 ^ 32 := by
    rw [← Int32.toInt_toBitVec, BitVec.toInt_eq_toNat_bmod]
    exact Int.bmod_emod.symm
  have hdvd : (2 : Int) ^ (8 * width.size) ∣ 2 ^ 32 := by
    apply pow_dvd_pow
    cases width <;> decide
  rw [hnat, Int.natCast_mod, ← Int.emod_emod_of_dvd k.toInt hdvd, ← hint,
    Int.emod_emod_of_dvd _ hdvd]
  norm_num

/-- Items of one width lie at multiples of it. -/
theorem take_drop_items (width : DataWidth) {i : Nat} {k : Int32} (h : values[i]? = some k)
    (rest : List UInt8) :
    ((values.flatMap (itemBytes width) ++ rest).drop (width.size * i)).take width.size =
      itemBytes width k := by
  induction values generalizing i with
  | nil => simp at h
  | cons j values ih =>
    have hj := length_itemBytes width j
    cases i with
    | zero =>
      obtain rfl : j = k := by simpa using h
      simp [hj]
    | succ i =>
      have hstart : width.size * (i + 1) = (itemBytes width j).length + width.size * i := by
        rw [hj, Nat.mul_succ, Nat.add_comm]
      rw [List.flatMap_cons, List.append_assoc, hstart, List.drop_length_add_append]
      exact ih (by simpa using h)

theorem bytes_eq_ok_iff : d.bytes values = .ok bs ↔
    (∀ k ∈ values, d.width.fits k) ∧
      bs = values.flatMap (itemBytes d.width) ++
        List.replicate ((d.width.size * values.length) % 2) 0 := by
  unfold bytes
  split
  · next k hk =>
    have hbad := List.find?_some hk
    have hmem := List.mem_of_find?_eq_some hk
    simp only [reduceCtorEq, false_iff, not_and]
    intro hfits
    simp [hfits k hmem] at hbad
  · next hnone =>
    have hfits : ∀ k ∈ values, d.width.fits k := by simpa using hnone
    simp only [length_items, Except.ok.injEq]
    exact ⟨fun h => ⟨hfits, h.symm⟩, fun h => h.2.symm⟩

/-- A row cannot be written if one of its items does not fit. -/
theorem bytes_eq_error_iff :
    (∃ e, d.bytes values = .error e) ↔ ∃ k ∈ values, ¬ d.width.fits k := by
  cases h : d.bytes values with
  | error e =>
    simp only [Except.error.injEq, exists_eq', true_iff]
    by_contra! hfits
    have hok := bytes_eq_ok_iff.mpr ⟨hfits, rfl⟩
    rw [h] at hok
    cases hok
  | ok bs =>
    have hfits := (bytes_eq_ok_iff.mp h).1
    simp only [reduceCtorEq, exists_false, false_iff]
    rintro ⟨k, hk, hbad⟩
    exact hbad (hfits k hk)

theorem field_eq (h : d.bytes values = .ok bs) {i : Nat} {k : Int32} (hk : values[i]? = some k) :
    (field d.width.size i bs : Int) = k.toInt % 2 ^ (8 * d.width.size) := by
  rw [(bytes_eq_ok_iff.mp h).2, field, take_drop_items d.width hk, ofDigits_itemBytes]

theorem padding_eq (h : d.bytes values = .ok bs) :
    bs.drop (d.width.size * values.length) =
      if Odd (d.width.size * values.length) then [0] else [] := by
  rw [(bytes_eq_ok_iff.mp h).2, ← length_items, List.drop_left]
  split
  · next hodd => rw [Nat.odd_iff.mp hodd]; rfl
  · next heven => rw [Nat.even_iff.mp (Nat.not_odd_iff_even.mp heven)]; rfl

theorem even_size (d : Data) : Even d.size := by
  rw [Nat.even_iff, size]
  omega

end Data

namespace Layout

theorem resolveData_ok {l : Layout} {d : Data} {values : List Int32} {bytes : List UInt8}
    (h : l.resolveData d = .ok (values, bytes)) :
    List.Forall₂ (fun e k => e.eval l.find? = .ok k) d.values values ∧
      d.bytes values = .ok bytes := by
  unfold resolveData at h
  obtain ⟨ks, hks, h⟩ := bind_ok.mp h
  obtain ⟨bs, hbs, h⟩ := bind_ok.mp h
  cases h
  refine ⟨(mapM_ok hks).imp fun e k he => mapError_ok.mp he, mapError_ok.mp hbs⟩

/-- Once all items have values, the row is what the values are written as. -/
theorem resolveData_eq {l : Layout} {d : Data} {values : List Int32}
    (h : List.Forall₂ (fun e k => e.eval l.find? = .ok k) d.values values) :
    l.resolveData d = ((d.bytes values).mapError .encoding).map (values, ·) := by
  have hvalues : d.values.mapM (fun e => (e.eval l.find?).mapError AddrError.toError) =
      .ok values := mapM_of_forall₂ (h.imp fun e k he => mapError_ok.mpr he)
  unfold resolveData
  rw [hvalues]
  change (do return (values, ← (d.bytes values).mapError Error.encoding)) = _
  cases d.bytes values <;> rfl

/-- The length and the bytes of a row leave nothing of its items open but multiples of what a field
can hold. -/
theorem resolveData_congr {l m : Layout} {d e : Data} {values others : List Int32}
    {bs : List UInt8} (hwidth : e.width = d.width) (hlength : e.values.length = d.values.length)
    (hd : l.resolveData d = .ok (values, bs)) (he : m.resolveData e = .ok (others, bs)) :
    List.Forall₂ (fun k j => k.toInt ≡ j.toInt [ZMOD 2 ^ (8 * d.width.size)]) values others := by
  obtain ⟨hvalues, hbytes⟩ := resolveData_ok hd
  obtain ⟨hothers, hbytes'⟩ := resolveData_ok he
  rw [List.forall₂_iff_get]
  refine ⟨by rw [← hvalues.length_eq, ← hothers.length_eq, hlength], fun i h h' => ?_⟩
  have hk := Data.field_eq hbytes (List.getElem?_eq_getElem h)
  have hj := Data.field_eq hbytes' (List.getElem?_eq_getElem h')
  rw [hwidth] at hj
  exact hk.symm.trans hj

end Layout

/-- A row whose items all have values is refused just if one of them is too great for its width,
with a sign as well as without. Else the bytes are as many as were reserved, in fields that give the
items back, and a zero byte follows if the fields are odd. -/
theorem data_rows_read_back {l : Layout} {d : Data} {values : List Int32}
    (heval : List.Forall₂ (fun e k => e.eval l.find? = .ok k) d.values values) :
    let width := d.width.size
    ((∃ e, l.resolveData d = .error e) ↔
        ∃ k ∈ values, k.toInt < -2 ^ (8 * width - 1) ∨ 2 ^ (8 * width) ≤ k.toInt) ∧
      (d.width = .dword → ∃ bs, l.resolveData d = .ok (values, bs)) ∧
      ∀ read bs, l.resolveData d = .ok (read, bs) →
        read = values ∧ bs.length = d.size ∧ Even bs.length ∧
          (∀ i k, values[i]? = some k →
            (Data.field width i bs : Int) = k.toInt % 2 ^ (8 * width)) ∧
          bs.drop (width * values.length) =
            (if Odd (width * values.length) then [0] else []) ∧
          ∀ (m : Layout) (e : Data) (others : List Int32), e.width = d.width →
            e.values.length = d.values.length → m.resolveData e = .ok (others, bs) →
              List.Forall₂ (fun k j => k.toInt ≡ j.toInt [ZMOD 2 ^ (8 * width)]) values others := by
  intro width
  have hrow := Layout.resolveData_eq heval
  refine ⟨?_, ?_, ?_⟩
  · have herror : (∃ e, l.resolveData d = .error e) ↔ ∃ e, d.bytes values = .error e := by
      rw [hrow]
      cases d.bytes values <;> simp [Except.mapError, Except.map]
    rw [herror, Data.bytes_eq_error_iff]
    simp only [DataWidth.fits_iff, not_and_or, not_le, not_lt, width]
  · intro hdword
    have hfits : ∀ k ∈ values, d.width.fits k := by
      rw [hdword]
      exact fun _ _ => rfl
    rw [hrow, Data.bytes_eq_ok_iff.mpr ⟨hfits, rfl⟩]
    exact ⟨_, rfl⟩
  · intro read bs h
    have hlength := Layout.length_resolveData h
    obtain ⟨hread, hbytes⟩ := Layout.resolveData_ok h
    obtain rfl : read = values :=
      List.right_unique_forall₂' (fun _ _ _ hx hy => Except.ok.inj (hx.symm.trans hy)) hread heval
    refine ⟨rfl, hlength, hlength ▸ d.even_size, fun i k => Data.field_eq hbytes,
      Data.padding_eq hbytes, fun m e others hwidth hsame he => ?_⟩
    exact Layout.resolveData_congr hwidth hsame h he

namespace RowSample

/-- A label at 512, so that `spot - 1` is `0x1ff`. -/
def layout : Layout := { labels := [("spot", 512)] }

def items : List AddrExpr :=
  [.binary (.arith .sub) (.address (.plain "spot")) (.const 1), .const (-2), .const 7]

theorem items_eval :
    List.Forall₂ (fun e k => AddrExpr.eval layout.find? e = .ok k) items [0x1ff, -2, 7] :=
  .cons rfl (.cons rfl (.cons rfl .nil))

end RowSample

open RowSample in
/-- As words the items lie low byte first. As bytes the first of them is too great. -/
theorem data_rows_read_back_words :
    layout.resolveData ⟨.word, items⟩ = .ok ([0x1ff, -2, 7], [0xff, 1, 0xfe, 0xff, 7, 0]) ∧
      Data.field 2 1 [0xff, 1, 0xfe, 0xff, 7, 0] = 65534 ∧
      ∃ e, layout.resolveData ⟨.byte, items⟩ = .error e := by
  have hrow : layout.resolveData ⟨.word, items⟩ =
      .ok ([0x1ff, -2, 7], [0xff, 1, 0xfe, 0xff, 7, 0]) := rfl
  have hwords := (data_rows_read_back (d := ⟨.word, items⟩) items_eval).2.2 _ _ hrow
  have hbytes := (data_rows_read_back (d := ⟨.byte, items⟩) items_eval).1
  refine ⟨hrow, Int.ofNat.inj (hwords.2.2.2.1 1 (-2) rfl), hbytes.mpr ?_⟩
  exact ⟨0x1ff, by simp, by decide⟩

end Avr
