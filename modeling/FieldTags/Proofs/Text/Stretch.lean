import FieldTags.Proofs.Text.Substitution

/-! Edits made in one stretch of a text. Stretches that lie side by side are edited each on its own,
and a range to be replaced may be empty. -/
namespace FieldTags

theorem Bytes.between_append (t : Bytes) {i j k : Nat} (hij : i ≤ j) (hjk : j ≤ k) :
    t.between i j ++ t.between j k = t.between i k := by
  have hfront : (t.take k).take j = t.take j := by
    rw [List.take_take, Nat.min_eq_left hjk]
  have hback : ((t.take k).drop i).drop (j - i) = (t.take k).drop j := by
    rw [List.drop_drop, Nat.add_sub_cancel' hij]
  have hcut := List.take_append_drop (j - i) ((t.take k).drop i)
  rw [hback, List.take_drop, Nat.add_sub_cancel' hij, hfront] at hcut
  exact hcut

theorem Bytes.length_between {t : Bytes} {i j : Nat} (hj : j ≤ t.length) :
    (t.between i j).length = j - i := by
  rw [between, List.length_drop, List.length_take, Nat.min_eq_left hj]

namespace Edit

/-- What the edits make of the bytes from `i` up to `j`. -/
def within (es : List Edit) (t : Bytes) (i j : Nat) : Bytes := applyFrom i es (t.between i j)

/-- The ranges of the edits ascend from `i` up to `j`; some may be empty. -/
def InOrder (i j : Nat) : List Edit → Prop
  | [] => i ≤ j
  | e :: es => i ≤ e.start ∧ e.start ≤ e.stop ∧ InOrder e.stop j es

section
variable {es fs : List Edit} {i j k : Nat}

theorem InOrder.le (h : InOrder i j es) : i ≤ j := by
  induction es generalizing i with
  | nil => exact h
  | cons e es ih =>
    obtain ⟨hstart, hstop, hrest⟩ := h
    have := ih hrest
    omega

theorem InOrder.of_le (h : InOrder j k es) (hij : i ≤ j) : InOrder i k es := by
  cases es with
  | nil => exact Nat.le_trans hij h
  | cons e es => exact ⟨Nat.le_trans hij h.1, h.2⟩

theorem InOrder.append (hes : InOrder i j es) (hfs : InOrder j k fs) : InOrder i k (es ++ fs) := by
  induction es generalizing i with
  | nil => exact hfs.of_le hes
  | cons e es ih => exact ⟨hes.1, hes.2.1, ih hes.2.2⟩

@[simp] theorem within_nil (t : Bytes) (i j : Nat) : within [] t i j = t.between i j := rfl

theorem within_cons {e : Edit} (t : Bytes) (h : InOrder i j (e :: es)) :
    within (e :: es) t i j = t.between i e.start ++ e.text ++ within es t e.stop j := by
  obtain ⟨hstart, hstop, hrest⟩ := h
  have hj := hrest.le
  have hfront : (t.between i j).take (e.start - i) = t.between i e.start := by
    rw [Bytes.between, List.take_drop, Nat.add_sub_cancel' hstart, List.take_take,
      Nat.min_eq_left (by omega)]
    rfl
  have hback : (t.between i j).drop (e.stop - i) = t.between e.stop j := by
    rw [Bytes.between, List.drop_drop, Nat.add_sub_cancel' (by omega)]
    rfl
  rw [within, applyFrom, hfront, hback]
  rfl

theorem within_append (t : Bytes) (hes : InOrder i j es) (hfs : InOrder j k fs) :
    within (es ++ fs) t i k = within es t i j ++ within fs t j k := by
  induction es generalizing i with
  | nil =>
    rw [List.nil_append, within_nil]
    cases fs with
    | nil => exact (Bytes.between_append t hes hfs).symm
    | cons f fs =>
      rw [within_cons t (hfs.of_le hes), within_cons t hfs,
        ← Bytes.between_append t hes hfs.1]
      simp only [List.append_assoc]
  | cons e es ih =>
    have hall : InOrder i k (e :: (es ++ fs)) := hes.append hfs
    rw [List.cons_append, within_cons t hall, within_cons t hes, ih hes.2.2]
    simp only [List.append_assoc]

theorem within_of_le (t : Bytes) (hij : i ≤ j) (h : InOrder j k es) :
    within es t i k = t.between i j ++ within es t j k :=
  within_append t (show InOrder i j [] from hij) h

theorem exists_within_eq_cons {t : Bytes} {b : UInt8} (hb : t[i]? = some b)
    (h : InOrder (i + 1) j es) : ∃ rest, within es t i j = b :: rest := by
  obtain ⟨hlen, rfl⟩ := List.getElem?_eq_some_iff.mp hb
  have hone : t.between i (i + 1) = [t[i]] := by
    rw [Bytes.between, List.take_succ_eq_append_getElem hlen, List.drop_left' (by simp; omega)]
  have hsplit := within_of_le t (Nat.le_succ i) h
  rw [hone] at hsplit
  exact ⟨_, hsplit⟩

end
end Edit
end FieldTags
