import FieldTags.Proofs.Field.Place
import FieldTags.Proofs.Shape.Declaration

/-! The places of tags are those of the shape: a tag is one number, and what stands around it holds no
digits. -/
namespace FieldTags
namespace Pieces

theorem isSuffix_text {w : Bytes} (hw : ∀ b ∈ w, Ascii.isDigit b = false) (ps : Pieces) :
    w <:+ text ps ↔ w <:+ shape ps := by
  induction ps with
  | nil => rfl
  | cons p ps ih =>
    cases p with
    | plain b hb =>
      change w <:+ b :: text ps ↔ w <:+ b :: shape ps
      rw [List.suffix_cons_iff, List.suffix_cons_iff, ih]
      have hwhole := @text_eq_iff w hw (.plain b hb :: ps)
      rw [text_cons, shape_cons, eq_comm, @eq_comm _ _ w] at hwhole
      exact or_congr_left hwhole
    | number n =>
      have hpass : ∀ d : Bytes, (∀ b ∈ d, Ascii.isDigit b = true) → ∀ t : Bytes,
          w <:+ d ++ t ↔ w <:+ t := by
        intro d hd t
        refine ⟨fun h => ?_, fun h => h.trans (List.suffix_append d t)⟩
        induction d with
        | nil => exact h
        | cons b d ih =>
          rw [List.cons_append, List.suffix_cons_iff] at h
          cases h with
          | inl heq =>
            have hb := hw b (by simp [heq])
            rw [hd b (by simp)] at hb
            simp at hb
          | inr h => exact ih (fun c hc => hd c (by simp [hc])) h
      have hzero := hpass [Piece.zero] (List.forall_mem_singleton.mpr Piece.isDigit_zero) (shape ps)
      rw [text_cons, Piece.text, hpass n.digits n.isDigit, ih, shape_cons, Piece.mark, ← hzero]
      rfl

theorem isPrefix_text {w : Bytes} (hw : ∀ b ∈ w, Ascii.isDigit b = false) (ps : Pieces) :
    w <+: text ps ↔ w <+: shape ps := by
  rw [← List.isPrefixOf_iff_prefix, ← List.isPrefixOf_iff_prefix, isPrefixOf_text hw]

theorem isNumber_text (ps : Pieces) : (text ps).IsNumber ↔ (shape ps).IsNumber := by
  have hall : (∀ b ∈ text ps, Ascii.isDigit b = true) ↔ ∀ b ∈ shape ps, Ascii.isDigit b = true := by
    induction ps with
    | nil => rfl
    | cons p ps ih =>
      rw [text_cons, shape_cons, List.forall_mem_append, List.forall_mem_cons, ih]
      apply and_congr_left'
      cases p with
      | plain b hb => simp [Piece.text, Piece.mark]
      | number n => exact iff_of_true n.isDigit Piece.isDigit_zero
  have hempty : text ps = [] ↔ shape ps = [] := text_eq_iff (by simp)
  rw [Bytes.IsNumber, Bytes.IsNumber, hall, Ne, hempty]

theorem tagPlace_text {ps : Pieces} {k : Nat} :
    TagPlace (text ps) (offset ps k) (offset ps (k + 1)) ↔ TagPlace (shape ps) k (k + 1) := by
  have hgaps : ∀ {gap : Bytes}, (∀ b ∈ gap, Ascii.isGap b = true) →
      ∀ b ∈ gap, Ascii.isDigit b = false := fun hgap b hb => Ascii.not_isDigit_of_isGap (hgap b hb)
  have hbefore : ∀ gap : Bytes, (∀ b ∈ gap, Ascii.isGap b = true) →
      (Ascii.equals :: gap <:+ text (ps.take k) ↔ Ascii.equals :: gap <:+ shape (ps.take k)) :=
    fun gap hgap => isSuffix_text (List.forall_mem_cons.mpr ⟨by decide, hgaps hgap⟩) _
  have hbehind : ∀ (gap : Bytes) (b : UInt8), (∀ c ∈ gap, Ascii.isGap c = true) →
      (b = Ascii.leftBracket ∨ b = Ascii.semicolon) →
      (gap ++ [b] <+: text (ps.drop (k + 1)) ↔ gap ++ [b] <+: shape (ps.drop (k + 1))) := by
    intro gap b hgap hb
    apply isPrefix_text
    rw [List.forall_mem_append, List.forall_mem_singleton]
    refine ⟨hgaps hgap, ?_⟩
    cases hb with
    | inl hbracket => rw [hbracket]; decide
    | inr hsemi => rw [hsemi]; decide
  have hdigits := isNumber_text (ps.between k (k + 1))
  rw [← between_offset, shape_between] at hdigits
  simp only [← take_offset, shape_take] at hbefore
  simp only [← drop_offset, shape_drop] at hbehind
  constructor
  · intro h
    obtain ⟨gap, hgap, hsuffix⟩ := h.before
    obtain ⟨gap', b, hgap', hb, hprefix⟩ := h.behind
    exact ⟨hdigits.mp h.digits, ⟨gap, hgap, (hbefore gap hgap).mp hsuffix⟩,
      ⟨gap', b, hgap', hb, (hbehind gap' b hgap' hb).mp hprefix⟩⟩
  · intro h
    obtain ⟨gap, hgap, hsuffix⟩ := h.before
    obtain ⟨gap', b, hgap', hb, hprefix⟩ := h.behind
    exact ⟨hdigits.mpr h.digits, ⟨gap, hgap, (hbefore gap hgap).mpr hsuffix⟩,
      ⟨gap', b, hgap', hb, (hbehind gap' b hgap' hb).mpr hprefix⟩⟩

theorem exists_offset_succ_of_getElem? {ps : Pieces} {i : Nat} {c : UInt8}
    (hc : Ascii.isDigit c = false) (h : (text ps)[i]? = some c) :
    ∃ k, k < ps.length ∧ i = offset ps k ∧ i + 1 = offset ps (k + 1) := by
  obtain ⟨k, rfl⟩ := exists_offset_of_getElem? hc h
  have hshape := (getElem?_offset hc).mp h
  have hlt := (List.getElem?_eq_some_iff.mp hshape).1
  rw [length_shape] at hlt
  exact ⟨k, hlt, rfl, (offset_succ_of_getElem? hc hshape).symm⟩

theorem length_of_isNumber {t : Bytes} (hs : Separated t) (h : t.IsNumber) : t.length = 1 := by
  obtain ⟨hne, hdigit⟩ := h
  cases t with
  | nil => exact absurd rfl hne
  | cons b t =>
    cases t with
    | nil => rfl
    | cons c t =>
      have hc := (List.isChain_cons_cons.mp hs).1 (hdigit b (by simp))
      rw [hdigit c (by simp)] at hc
      simp at hc

theorem exists_tagPlace {ps : Pieces} (hs : Separated (shape ps)) {start stop : Nat}
    (h : TagPlace (text ps) start stop) :
    ∃ k, start = offset ps k ∧ stop = offset ps (k + 1) ∧ TagPlace (shape ps) k (k + 1) := by
  have hlt := h.start_lt_stop
  have hstop := h.stop_lt
  obtain ⟨⟨b, hb, hbdigit⟩, c, hc, hcdigit⟩ := h.maximal
  have hpos : start ≠ 0 := by
    intro hzero
    simp [hzero] at hb
  rw [List.getLast?_eq_getElem?, List.length_take, Nat.min_eq_left (by omega),
    List.getElem?_take_of_lt (by omega)] at hb
  -- the bytes next to the digits are no digits, so pieces begin and end there
  obtain ⟨i, -, -, hi⟩ := exists_offset_succ_of_getElem? hbdigit hb
  obtain ⟨j, hj, rfl, -⟩ := exists_offset_succ_of_getElem? hcdigit hc
  obtain rfl : start = offset ps (i + 1) := by omega
  have hone : (ps.between (i + 1) j).length = 1 := by
    have hdigits := h.digits
    rw [between_offset, isNumber_text, shape_between] at hdigits
    rw [← length_shape, shape_between]
    exact length_of_isNumber (hs.between _ _) hdigits
  rw [between, List.length_drop, List.length_take] at hone
  obtain rfl : j = i + 1 + 1 := by omega
  exact ⟨i + 1, rfl, rfl, tagPlace_text.mp h⟩

end Pieces
end FieldTags
