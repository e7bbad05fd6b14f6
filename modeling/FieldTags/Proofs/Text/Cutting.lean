import FieldTags.Proofs.Text.Encoding
import FieldTags.Proofs.Text.Stretch

/-! Cutting texts at boundaries. The parts of a valid text in front of a boundary and behind it are
valid, and so is what is put together from valid parts. -/
namespace FieldTags
open String (utf8EncodeChar)

namespace Bytes
open Utf8
variable {t : Bytes} {i : Nat} {b : UInt8}

theorem isBoundary_of_ascii (hb : t[i]? = some b) (ha : b < 0x80) : t.isBoundary i = true := by
  simp [isBoundary, hb, not_isContinuation_of_ascii ha]

theorem isBoundary_length (t : Bytes) : t.isBoundary t.length = true := by
  simp [isBoundary]

theorem le_length_of_isBoundary (h : t.isBoundary i = true) : i ≤ t.length := by
  by_contra hlt
  have hnone : t[i]? = none := List.getElem?_eq_none (by omega)
  have hzero : i ≠ 0 := by omega
  have hend : i ≠ t.length := by omega
  simp [isBoundary, hzero, hend, hnone] at h

theorem isBoundary_append_right (s t : Bytes) (hi : 0 < i) :
    (s ++ t).isBoundary (s.length + i) = t.isBoundary i := by
  have hget : (s ++ t)[s.length + i]? = t[i]? := by
    rw [List.getElem?_append_right (by omega), Nat.add_sub_cancel_left]
  have hzero : (s.length + i == 0) = (i == 0) := by
    rw [Bool.eq_iff_iff, beq_iff_eq, beq_iff_eq]
    omega
  have hend : (s.length + i == (s ++ t).length) = (i == t.length) := by
    rw [Bool.eq_iff_iff, beq_iff_eq, beq_iff_eq, List.length_append]
    omega
  rw [isBoundary, isBoundary, hget, hzero, hend]

theorem isBoundary_append_left {s : Bytes} (t : Bytes) (hi : i < s.length) :
    (s ++ t).isBoundary i = s.isBoundary i := by
  have hend : (i == (s ++ t).length) = (i == s.length) := by
    rw [Bool.eq_iff_iff, beq_iff_eq, beq_iff_eq, List.length_append]
    omega
  rw [isBoundary, isBoundary, List.getElem?_append_left hi, hend]

theorem slice?_eq_some_iff {j : Nat} {body : Bytes} : t.slice? i j = some body ↔
    (i ≤ j ∧ t.isBoundary i = true ∧ t.isBoundary j = true) ∧ t.between i j = body := by
  rw [slice?, Option.ite_none_right_eq_some, Option.some_inj]

theorem slice?_eq_some {j : Nat} (hij : i ≤ j) (hi : t.isBoundary i = true)
    (hj : t.isBoundary j = true) : t.slice? i j = some (t.between i j) :=
  if_pos ⟨hij, hi, hj⟩

end Bytes

namespace Utf8
open Bytes
variable {s t : Bytes} {i j : Nat}

theorem isValid_iff : isValid t = true ↔ ∃ cs : List Char, t = cs.flatMap utf8EncodeChar := by
  rw [isValid, Option.isSome_iff_exists]
  exact exists_congr fun _ => chars?_eq_some_iff

theorem trailing_of_isValid (h : isValid t = true) : trailing t = 0 := by
  obtain ⟨cs, rfl⟩ := isValid_iff.mp h
  cases cs with
  | nil => rfl
  | cons c cs => exact trailing_encode c _

theorem isValid_append (hs : isValid s = true) (ht : isValid t = true) :
    isValid (s ++ t) = true := by
  obtain ⟨cs, rfl⟩ := isValid_iff.mp hs
  obtain ⟨ds, rfl⟩ := isValid_iff.mp ht
  exact isValid_iff.mpr ⟨cs ++ ds, List.flatMap_append.symm⟩

theorem isValid_of_ascii (h : ∀ b ∈ t, b < 0x80) : isValid t = true := by
  induction t with
  | nil => rfl
  | cons b t ih =>
    obtain ⟨hb, ht⟩ := List.forall_mem_cons.mp h
    have hrest := ih ht
    rw [isValid, chars?] at hrest ⊢
    rw [charsAfter?, front?_ascii hb]
    simpa using hrest

/-- No character of a valid text lies across a boundary. -/
theorem exists_cut (hv : isValid t = true) (hi : t.isBoundary i = true) :
    ∃ cs ds : List Char, t.take i = cs.flatMap utf8EncodeChar ∧
      t.drop i = ds.flatMap utf8EncodeChar := by
  obtain ⟨cs, rfl⟩ := isValid_iff.mp hv
  induction cs generalizing i with
  | nil => exact ⟨[], [], by simp, by simp⟩
  | cons c cs ih =>
    rw [List.flatMap_cons] at hi ⊢
    obtain ⟨b, r, henc, -, hcont⟩ := exists_cons_encode c
    rcases Nat.lt_or_ge i (utf8EncodeChar c).length with hlt | hge
    · obtain rfl : i = 0 := by
        -- the bytes behind the first one of a character continue it
        by_contra hne
        obtain ⟨k, rfl⟩ := Nat.exists_eq_succ_of_ne_zero hne
        rw [isBoundary_append_left _ hlt, henc] at hi
        rw [henc, List.length_cons] at hlt
        have hk : k < r.length := by omega
        have := hcont _ (List.getElem_mem hk)
        simp [isBoundary, hk, this] at hi
        omega
      exact ⟨[], c :: cs, by simp, by simp⟩
    · obtain ⟨k, rfl⟩ := Nat.exists_eq_add_of_le hge
      have hk : isBoundary (cs.flatMap utf8EncodeChar) k = true := by
        cases k with
        | zero => simp [isBoundary]
        | succ k => rwa [isBoundary_append_right _ _ (Nat.succ_pos k)] at hi
      obtain ⟨ds, es, htake, hdrop⟩ := ih (isValid_iff.mpr ⟨cs, rfl⟩) hk
      refine ⟨c :: ds, es, ?_, ?_⟩
      · rw [List.take_length_add_append, htake, List.flatMap_cons]
      · rw [List.drop_length_add_append, hdrop]

theorem isValid_take (hv : isValid t = true) (hi : t.isBoundary i = true) :
    isValid (t.take i) = true := by
  obtain ⟨cs, -, htake, -⟩ := exists_cut hv hi
  exact isValid_iff.mpr ⟨cs, htake⟩

theorem isValid_drop (hv : isValid t = true) (hi : t.isBoundary i = true) :
    isValid (t.drop i) = true := by
  obtain ⟨-, ds, -, hdrop⟩ := exists_cut hv hi
  exact isValid_iff.mpr ⟨ds, hdrop⟩

theorem isValid_between (hv : isValid t = true) (hij : i ≤ j) (hi : t.isBoundary i = true)
    (hj : t.isBoundary j = true) : isValid (t.between i j) = true := by
  have hfront := isValid_take hv hj
  refine isValid_drop hfront ?_
  have hlen := le_length_of_isBoundary hj
  have htake : (t.take j).length = j := List.length_take_of_le hlen
  rcases Nat.lt_or_eq_of_le hij with hlt | rfl
  · have happend := isBoundary_append_left (t.drop j) (s := t.take j) (i := i) (by omega)
    rw [List.take_append_drop] at happend
    rw [← happend, hi]
  · have := isBoundary_length (t.take i)
    rwa [htake] at this

theorem isValid_splice {new : Bytes} (hv : isValid t = true) (hnew : isValid new = true)
    (hi : t.isBoundary i = true) (hj : t.isBoundary j = true) :
    isValid (t.splice i j new) = true :=
  isValid_append (isValid_append (isValid_take hv hi) hnew) (isValid_drop hv hj)

theorem isValid_of_slice? {body : Bytes} (hv : isValid t = true) (h : t.slice? i j = some body) :
    isValid body = true ∧ ∀ new, isValid new = true → isValid (t.splice i j new) = true := by
  obtain ⟨⟨hij, hi, hj⟩, rfl⟩ := slice?_eq_some_iff.mp h
  exact ⟨isValid_between hv hij hi hj, fun new hnew => isValid_splice hv hnew hi hj⟩

end Utf8
end FieldTags
