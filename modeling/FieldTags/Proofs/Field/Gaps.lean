import FieldTags.Field.Declaration

/-! The gaps inside a declaration: spaces and tabs, as many as stand at a place. -/
namespace FieldTags
namespace Ascii
variable {b : UInt8}

theorem isGap_iff : isGap b = true ↔ b = space ∨ b = tab := by
  simp [isGap]

theorem ascii_of_isGap (h : isGap b = true) : b < 0x80 := by
  rcases isGap_iff.mp h with rfl | rfl <;> decide

theorem not_isDigit_of_isGap (h : isGap b = true) : isDigit b = false := by
  rcases isGap_iff.mp h with rfl | rfl <;> decide

end Ascii

namespace Declaration
variable {t : Bytes} {b : UInt8}

theorem take_gapLength (t : Bytes) : t.take (gapLength t) = t.takeWhile Ascii.isGap :=
  (List.prefix_iff_eq_take.mp (List.takeWhile_prefix Ascii.isGap)).symm

theorem isGap_of_mem_takeWhile (t : Bytes) :
    ∀ b ∈ t.takeWhile Ascii.isGap, Ascii.isGap b = true :=
  List.all_eq_true.mp (List.all_takeWhile (l := t))

theorem isGap_of_lt_gapLength {p k : Nat} (hp : p ≤ k) (hk : k - p < gapLength (t.drop p))
    (hb : t[k]? = some b) : Ascii.isGap b = true := by
  have hat : ((t.drop p).take (gapLength (t.drop p)))[k - p]? = some b := by
    rw [List.getElem?_take_of_lt hk, List.getElem?_drop, Nat.add_sub_cancel' hp, hb]
  rw [take_gapLength] at hat
  exact isGap_of_mem_takeWhile _ b (List.mem_of_getElem? hat)

theorem getElem?_gapLength {k : Nat} (hk : k < gapLength t) :
    ∃ b, t[k]? = some b ∧ Ascii.isGap b = true := by
  have hlen : k < t.length := Nat.lt_of_lt_of_le hk (List.takeWhile_prefix _).length_le
  have hget := List.getElem?_eq_getElem hlen
  exact ⟨_, hget, isGap_of_lt_gapLength (Nat.zero_le k) hk hget⟩

theorem isGap_getElem?_gapLength (h : t[gapLength t]? = some b) : Ascii.isGap b = false := by
  induction t with
  | nil => simp at h
  | cons c t ih =>
    cases hc : Ascii.isGap c with
    | false =>
      have hbc : c = b := by simpa [gapLength, hc] using h
      rw [← hbc, hc]
    | true =>
      apply ih
      simpa [gapLength, hc] using h

theorem gapLength_append {g : Bytes} (hg : ∀ b ∈ g, Ascii.isGap b = true)
    (ht : ∀ b, t.head? = some b → Ascii.isGap b = false) : gapLength (g ++ t) = g.length := by
  rw [gapLength, List.takeWhile_append_of_pos hg, List.length_append, Nat.add_eq_left,
    List.length_eq_zero_iff]
  cases t with
  | nil => rfl
  | cons b t => rw [List.takeWhile_cons, ht b rfl, if_neg Bool.false_ne_true]

end Declaration
end FieldTags
