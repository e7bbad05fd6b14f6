import FieldTags.Proofs.Field.Gaps
import FieldTags.Proofs.Field.Tags

/-! Where tags stand: a whole run of digits behind an equals sign and before an option group or a
semicolon, with nothing but gaps between. -/
namespace FieldTags

/-- The bytes from `start` up to `stop` are digits; spaces and tabs apart, an equals sign stands before
them and an opening bracket or a semicolon behind them. -/
structure TagPlace (t : Bytes) (start stop : Nat) : Prop where
  digits : (t.between start stop).IsNumber
  before : ∃ gap, (∀ b ∈ gap, Ascii.isGap b = true) ∧ (Ascii.equals :: gap) <:+ t.take start
  behind : ∃ gap b, (∀ c ∈ gap, Ascii.isGap c = true) ∧
    (b = Ascii.leftBracket ∨ b = Ascii.semicolon) ∧ (gap ++ [b]) <+: t.drop stop

namespace TagPlace
variable {t : Bytes} {start stop : Nat}

theorem maximal (h : TagPlace t start stop) :
    (∃ b, (t.take start).getLast? = some b ∧ Ascii.isDigit b = false) ∧
      ∃ b, t[stop]? = some b ∧ Ascii.isDigit b = false := by
  constructor
  · obtain ⟨gap, hgap, front, hfront⟩ := h.before
    rw [← hfront, List.getLast?_append_cons]
    cases hlast : (Ascii.equals :: gap).getLast? with
    | none => simp at hlast
    | some b =>
      refine ⟨b, rfl, ?_⟩
      cases List.mem_cons.mp (List.mem_of_getLast? hlast) with
      | inl hequals => rw [hequals]; decide
      | inr hmem => exact Ascii.not_isDigit_of_isGap (hgap b hmem)
  · obtain ⟨gap, b, hgap, hb, rest, hrest⟩ := h.behind
    rw [← Nat.add_zero stop, ← List.getElem?_drop, ← hrest]
    cases gap with
    | nil =>
      refine ⟨b, rfl, ?_⟩
      cases hb with
      | inl hbracket => rw [hbracket]; decide
      | inr hsemi => rw [hsemi]; decide
    | cons c gap => exact ⟨c, rfl, Ascii.not_isDigit_of_isGap (hgap c (by simp))⟩

theorem stop_lt (h : TagPlace t start stop) : stop < t.length := by
  obtain ⟨-, b, hb, -⟩ := h.maximal
  exact (List.getElem?_eq_some_iff.mp hb).1

theorem start_lt_stop (h : TagPlace t start stop) : start < stop := by
  by_contra hle
  apply h.digits.1
  apply List.drop_eq_nil_of_le
  have := List.length_take_le stop t
  omega

theorem getElem?_start (h : TagPlace t start stop) :
    ∃ b, t[start]? = some b ∧ Ascii.isDigit b = true := by
  have hstart := h.start_lt_stop
  have hlt : start < t.length := Nat.lt_trans hstart h.stop_lt
  refine ⟨t[start], List.getElem?_eq_getElem hlt, h.digits.2 _ ?_⟩
  apply List.mem_of_getElem? (i := 0)
  rw [Bytes.between, List.getElem?_drop, Nat.add_zero, List.getElem?_take_of_lt hstart,
    List.getElem?_eq_getElem hlt]

theorem framed (h : TagPlace t start stop) (o c : Bytes) :
    TagPlace (o ++ t ++ c) (o.length + start) (o.length + stop) := by
  have hstop := h.stop_lt
  have hstart := h.start_lt_stop
  have htake : ∀ i ≤ t.length, (o ++ t ++ c).take (o.length + i) = o ++ t.take i := by
    intro i hi
    rw [List.append_assoc, List.take_length_add_append, List.take_append_of_le_length hi]
  refine ⟨?_, ?_, ?_⟩
  · rw [Bytes.between, htake stop (by omega), List.drop_length_add_append]
    exact h.digits
  · obtain ⟨gap, hgap, hsuffix⟩ := h.before
    rw [htake start (by omega)]
    exact ⟨gap, hgap, hsuffix.trans (List.suffix_append o _)⟩
  · obtain ⟨gap, b, hgap, hb, hprefix⟩ := h.behind
    rw [List.append_assoc, List.drop_length_add_append, List.drop_append_of_le_length (by omega)]
    exact ⟨gap, b, hgap, hb, hprefix.trans (List.prefix_append _ c)⟩

end TagPlace

namespace Declaration

theorem behind_tag {t : Bytes} {i n : Nat}
    (hn : optionsLength? (t.drop (i + gapLength (t.drop i))) = some n)
    (hsemi : t[i + gapLength (t.drop i) + n +
      gapLength (t.drop (i + gapLength (t.drop i) + n))]? = some Ascii.semicolon) :
    ∃ b, (b = Ascii.leftBracket ∨ b = Ascii.semicolon) ∧
      (t.drop i).takeWhile Ascii.isGap ++ [b] <+: t.drop i := by
  suffices hat : ∃ b, (b = Ascii.leftBracket ∨ b = Ascii.semicolon) ∧
      (t.drop i)[gapLength (t.drop i)]? = some b by
    obtain ⟨b, hb, hat⟩ := hat
    have hprefix := List.take_prefix (gapLength (t.drop i) + 1) (t.drop i)
    rw [List.take_add_one, take_gapLength, hat] at hprefix
    exact ⟨b, hb, hprefix⟩
  rw [List.getElem?_drop]
  generalize hgroup : i + gapLength (t.drop i) = group at hn hsemi ⊢
  have hhead : t[group]? = (t.drop group).head? := by simp
  cases hd : t.drop group with
  | nil =>
    have hlong := List.drop_eq_nil_iff.mp hd
    rw [List.getElem?_eq_none (by omega)] at hsemi
    simp at hsemi
  | cons b rest =>
    rw [hd, List.head?_cons] at hhead
    by_cases hb : b = Ascii.leftBracket
    · exact ⟨b, .inl hb, hhead⟩
    · have hgap : Ascii.isGap b = false := by
        apply isGap_getElem?_gapLength (t := t.drop i)
        rw [List.getElem?_drop, hgroup, hhead]
      have hzero : n = 0 := by simpa [hd, optionsLength?, hb, eq_comm] using hn
      have hnone : gapLength (t.drop group) = 0 := by simp [gapLength, hd, hgap]
      rw [hzero, Nat.add_zero, hnone, Nat.add_zero, hhead] at hsemi
      exact ⟨b, .inr (Option.some.inj hsemi), hhead⟩

theorem tagPlace {t : Bytes} {d : Declaration} (h : front? t = some d) :
    TagPlace t d.tagStart (d.tagStart + d.tag.length) := by
  obtain ⟨o, -, ho⟩ := List.exists_of_findSome?_eq_some h
  unfold complete? at ho
  simp only at ho
  -- of what stands before the tag only the equals sign matters
  generalize o.typeStop + gapLength (t.drop o.typeStop) = nameStart at ho
  generalize nameStart + nameLength (t.drop nameStart) +
    gapLength (t.drop (nameStart + nameLength (t.drop nameStart))) = equals at ho
  generalize hstart : equals + 1 + gapLength (t.drop (equals + 1)) = tagStart at ho
  generalize htag : (t.drop tagStart).takeWhile Ascii.isDigit = tag at ho
  split at ho
  · rename_i hc
    obtain ⟨-, -, hequals, hne⟩ := hc
    obtain ⟨n, hn, hd⟩ := Option.bind_eq_some_iff.mp ho
    split at hd
    · rename_i hsemi
      obtain rfl := Option.some.inj hd
      have hbetween : t.between tagStart (tagStart + tag.length) = tag := by
        rw [Bytes.between, ← List.take_drop, ← htag,
          ← List.prefix_iff_eq_take.mp (List.takeWhile_prefix Ascii.isDigit)]
      have hdigits : ∀ b ∈ tag, Ascii.isDigit b = true := by
        rw [← htag]
        exact List.all_eq_true.mp (List.all_takeWhile (l := t.drop tagStart))
      refine ⟨?_, ?_, ?_⟩
      · simp only [hbetween]
        exact ⟨hne, hdigits⟩
      · refine ⟨_, isGap_of_mem_takeWhile (t.drop (equals + 1)), ?_⟩
        obtain ⟨hlt, hat⟩ := List.getElem?_eq_some_iff.mp hequals
        simp only
        rw [← hstart, List.take_add, take_gapLength, List.take_succ_eq_append_getElem hlt, hat,
          List.append_assoc]
        exact List.suffix_append _ _
      · obtain ⟨b, hb, hprefix⟩ := behind_tag hn hsemi
        exact ⟨_, b, isGap_of_mem_takeWhile _, hb, hprefix⟩
    · simp at hd
  · simp at ho

end Declaration

theorem Ascii.decimal_of_le {n : Nat} (h : 10 ≤ n) :
    decimal n = decimal (n / 10) ++ [(n % 10).digitChar.toUInt8] := by
  rw [decimal, Nat.toDigits_of_base_le (by decide) h, List.map_append]
  rfl

theorem Ascii.head?_decimal_ne_zero {n : Nat} (h : 0 < n) : (decimal n).head? ≠ some 0x30 := by
  induction n using Nat.strongRecOn with
  | ind n ih =>
    by_cases hn : n < 10
    · rw [decimal, Nat.toDigits_of_lt_base hn]
      have hdigits : ∀ d < 10, 0 < d → [d.digitChar.toUInt8].head? ≠ some 0x30 := by decide
      exact hdigits n hn h
    · have hmore : decimal (n / 10) ≠ [] := (isNumber_decimal _).1
      rw [decimal_of_le (by omega), List.head?_append_of_ne_nil _ hmore]
      exact ih (n / 10) (by omega) (by omega)

/-- The edit gives a tag of the text `t` a positive number. The tag is a whole run of digits, and the
number is written without leading zeros. -/
structure Edit.IsRetag (t : Bytes) (e : Edit) : Prop where
  place : TagPlace t e.start e.stop
  maximal : (∃ b, (t.take e.start).getLast? = some b ∧ Ascii.isDigit b = false) ∧
    ∃ b, t[e.stop]? = some b ∧ Ascii.isDigit b = false
  positive : ∃ n, 0 < n ∧ e.text = Ascii.decimal n
  canonical : e.text.head? ≠ some 0x30

namespace Edit

theorem isRetag_of_place {t : Bytes} {start stop n : Nat} (h : TagPlace t start stop) (hn : 0 < n) :
    IsRetag t ⟨start, stop, Ascii.decimal n⟩ where
  place := h
  maximal := h.maximal
  positive := ⟨n, hn, rfl⟩
  canonical := Ascii.head?_decimal_ne_zero hn

theorem IsRetag.framed {t : Bytes} {e : Edit} (h : e.IsRetag t) (o c : Bytes) :
    (e.shift o.length).IsRetag (o ++ t ++ c) := by
  obtain ⟨n, hn, htext⟩ := h.positive
  rw [shift, htext]
  exact isRetag_of_place (h.place.framed o c) hn

end Edit

theorem isRetag_of_mem_retag {body : Bytes} {e : Edit} (h : e ∈ retag (fields body)) :
    e.IsRetag body := by
  obtain ⟨i, hi⟩ := List.mem_iff_getElem?.mp h
  rw [retag, getElem?_retagFrom] at hi
  obtain ⟨f, hf, rfl⟩ := Option.map_eq_some_iff.mp hi
  obtain ⟨-, -, -, hd⟩ := mem_fieldsFrom (List.mem_of_getElem? hf)
  have hplace := Declaration.tagPlace hd
  have hstart : (body.take f.start).length = f.start := by
    have hlt := hplace.stop_lt
    rw [List.length_drop] at hlt
    rw [List.length_take]
    omega
  have hwhole := hplace.framed (body.take f.start) []
  rw [List.append_nil, List.take_append_drop, hstart, ← Nat.add_assoc] at hwhole
  exact Edit.isRetag_of_place hwhole (by omega)

end FieldTags
