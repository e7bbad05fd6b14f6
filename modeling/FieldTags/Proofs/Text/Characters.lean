import FieldTags.Text.Run

/-! Characters and their bytes: a character takes its first byte and continuation bytes after it,
so an ASCII byte is a character of its own wherever it stands. -/
namespace FieldTags
namespace Utf8

/-- The number of continuation bytes at the front of a text. -/
def trailing (t : Bytes) : Nat := (t.takeWhile isContinuation).length

theorem not_isContinuation_of_ascii {b : UInt8} (h : b < 0x80) : isContinuation b = false := by
  have hn : ¬ (0x80 : UInt8) ≤ b := by
    rw [UInt8.le_iff_toNat_le]
    rw [UInt8.lt_iff_toNat_lt] at h
    omega
  simp [isContinuation, hn]

theorem trailing_cons (b : UInt8) (t : Bytes) :
    trailing (b :: t) = if isContinuation b then trailing t + 1 else 0 := by
  cases h : isContinuation b <;> simp [trailing, h]

theorem succ_le_trailing_cons {skip : Nat} {b : UInt8} {t : Bytes} :
    skip + 1 ≤ trailing (b :: t) ↔ isContinuation b = true ∧ skip ≤ trailing t := by
  cases h : isContinuation b <;> simp [trailing_cons, h]

theorem getElem?_zero_ne_ascii {b c : UInt8} {t : Bytes} (hb : isContinuation b = true)
    (hc : c < 0x80) : (b :: t)[0]? ≠ some c := by
  intro h
  obtain rfl : b = c := by simpa using h
  rw [not_isContinuation_of_ascii hc] at hb
  simp at hb

theorem trailing_cons_of_ascii {b : UInt8} (h : b < 0x80) (t : Bytes) : trailing (b :: t) = 0 := by
  simp [trailing_cons, not_isContinuation_of_ascii h]

theorem trailing_append {s t : Bytes} (h : trailing t = 0) : trailing (s ++ t) = trailing s := by
  induction s with
  | nil => exact h
  | cons b s ih => simp [trailing_cons, ih]

theorem front?_takeWhile (b : UInt8) (t : Bytes) :
    front? (b :: t) = front? (b :: t.takeWhile isContinuation) := by
  have hp : ∀ x : UInt8, isContinuation x = false → payload? x = none := by
    intro x hx
    simp [payload?, hx]
  cases t with
  | nil => rfl
  | cons x t =>
    cases hx : isContinuation x with
    | false => simp [front?, hx, hp]
    | true =>
      cases t with
      | nil => simp [hx]
      | cons y t =>
        cases hy : isContinuation y with
        | false => simp [front?, hx, hy, hp]
        | true =>
          cases t with
          | nil => simp [hx, hy]
          | cons z t =>
            cases hz : isContinuation z with
            | false => simp [front?, hx, hy, hz, hp]
            | true => simp [front?, hx, hy, hz]

theorem front?_ascii {b : UInt8} (h : b < 0x80) (t : Bytes) :
    front? (b :: t) = some (Char.ofNat b.toNat, 1) := by
  simp [front?, h]

/-- A character's bytes after the first are continuation bytes. -/
theorem width_le {b : UInt8} {t : Bytes} {c : Char} {w : Nat} (h : front? (b :: t) = some (c, w)) :
    0 < w ∧ w - 1 ≤ trailing t := by
  rw [front?_takeWhile] at h
  have hl : ∀ s : Bytes, front? (b :: s) = some (c, w) → 0 < w ∧ w - 1 ≤ s.length := by
    intro s hs
    have hlen : ∀ i x, s[i]? = some x → i < s.length := by
      intro i x hi
      exact (List.getElem?_eq_some_iff.mp hi).1
    simp only [front?, Option.bind_eq_bind] at hs
    split at hs
    · simp at hs
      omega
    split at hs
    · simp at hs
    split at hs
    · simp only [Option.bind_eq_some_iff] at hs
      obtain ⟨x, ⟨x', hx, -⟩, hs⟩ := hs
      have := hlen 0 x' hx
      simp at hs
      omega
    split at hs
    · simp only [Option.bind_eq_some_iff] at hs
      obtain ⟨x, -, y, ⟨y', hy, -⟩, hs⟩ := hs
      have := hlen 1 y' hy
      split at hs <;> simp at hs
      omega
    split at hs
    · simp only [Option.bind_eq_some_iff] at hs
      obtain ⟨x, -, y, -, z, ⟨z', hz, -⟩, hs⟩ := hs
      have := hlen 2 z' hz
      split at hs <;> simp at hs
      omega
    · simp at hs
  exact hl _ h
theorem front?_append (b : UInt8) {s t : Bytes} (h : trailing t = 0) :
    front? (b :: (s ++ t)) = front? (b :: s) := by
  rw [front?_takeWhile, front?_takeWhile b s]
  congr 2
  induction s with
  | nil => simpa [trailing] using h
  | cons x s ih =>
    rw [List.cons_append, List.takeWhile_cons, List.takeWhile_cons, ih]

theorem front?_of_isContinuation {b : UInt8} (h : isContinuation b = true) (t : Bytes) :
    front? (b :: t) = none := by
  simp only [isContinuation, Bool.and_eq_true, decide_eq_true_eq, UInt8.le_iff_toNat_le,
    UInt8.lt_iff_toNat_lt] at h
  have h1 : ¬ b < 0x80 := by
    rw [UInt8.lt_iff_toNat_lt]
    exact Nat.not_lt_of_le h.1
  have h2 : b < 0xC2 := by
    rw [UInt8.lt_iff_toNat_lt]
    exact Nat.lt_of_lt_of_le h.2 (by decide)
  simp [front?, h1, h2]

end Utf8

namespace Bytes
open Utf8
variable {p : Char → Bool}

/-- Whether the class holds of the byte's character, for bytes that are characters. -/
def holdsOf (p : Char → Bool) (b : UInt8) : Bool := p (Char.ofNat b.toNat)

theorem runAfter_zero_ascii {b : UInt8} (h : b < 0x80) (t : Bytes) :
    runAfter p 0 (b :: t) = if holdsOf p b then 1 + runAfter p 0 t else 0 := by
  simp only [runAfter, front?_ascii h]
  rfl

theorem run_cons_ascii {b : UInt8} (h : b < 0x80) (t : Bytes) :
    run p (b :: t) = if holdsOf p b then 1 + run p t else 0 :=
  runAfter_zero_ascii h t

theorem marksAfter_zero_ascii {b : UInt8} (h : b < 0x80) (current : Bool) (t : Bytes) :
    marksAfter p 0 current (b :: t) = holdsOf p b :: marksAfter p 0 (holdsOf p b) t := by
  simp only [marksAfter, front?_ascii h]
  rfl

/-- The characters of ASCII bytes are all in the run or all but the first of them out of it. -/
theorem run_append_of_ascii {s t : Bytes} (h : ∀ b ∈ s, b < 0x80 ∧ holdsOf p b = true) :
    run p (s ++ t) = s.length + run p t := by
  induction s with
  | nil => simp
  | cons b s ih =>
    have hb := h b (by simp)
    rw [List.cons_append, run_cons_ascii hb.1, if_pos hb.2, ih fun c hc => h c (by simp [hc])]
    simp only [List.length_cons]
    omega

theorem runAfter_le_length (p : Char → Bool) (skip : Nat) (t : Bytes) :
    runAfter p skip t ≤ t.length := by
  induction t generalizing skip with
  | nil => cases skip <;> simp [runAfter]
  | cons b t ih =>
    cases skip with
    | succ skip =>
      have := ih skip
      simp only [runAfter, List.length_cons]
      omega
    | zero =>
      simp only [runAfter, List.length_cons]
      split
      · omega
      · rename_i c w _
        have := ih (w - 1)
        split <;> omega

theorem run_le_length (p : Char → Bool) (t : Bytes) : run p t ≤ t.length :=
  runAfter_le_length p 0 t

theorem runAfter_ascii {skip i : Nat} {t : Bytes} {b : UInt8} (hs : skip ≤ trailing t)
    (hi : i < runAfter p skip t) (hb : t[i]? = some b) (ha : b < 0x80) : holdsOf p b = true := by
  induction t generalizing skip i with
  | nil => simp at hb
  | cons x t ih =>
    cases skip with
    | succ skip =>
      obtain ⟨hx, hs⟩ := succ_le_trailing_cons.mp hs
      cases i with
      | zero => exact absurd hb (getElem?_zero_ne_ascii hx ha)
      | succ i =>
        simp only [runAfter] at hi
        exact @ih skip i hs (by omega) hb
    | zero =>
      cases hf : front? (x :: t) with
      | none => simp [runAfter, hf] at hi
      | some cw =>
        obtain ⟨c, w⟩ := cw
        have hw := width_le hf
        simp only [runAfter, hf] at hi
        split at hi
        · rename_i hc
          cases i with
          | zero =>
            rw [List.getElem?_cons_zero, Option.some.injEq] at hb
            rw [hb, front?_ascii ha] at hf
            simp only [Option.some.injEq, Prod.mk.injEq] at hf
            rw [holdsOf, hf.1, hc]
          | succ i => exact ih hw.2 (by omega) hb
        · omega

theorem holdsOf_of_lt_run {i : Nat} {t : Bytes} {b : UInt8} (hi : i < run p t)
    (hb : t[i]? = some b) (ha : b < 0x80) : holdsOf p b = true :=
  runAfter_ascii (Nat.zero_le _) hi hb ha

@[simp] theorem length_marksAfter (p : Char → Bool) (skip : Nat) (current : Bool) (t : Bytes) :
    (marksAfter p skip current t).length = t.length := by
  induction t generalizing skip current with
  | nil => cases skip <;> rfl
  | cons b t ih =>
    cases skip with
    | succ skip => simp [marksAfter, ih]
    | zero =>
      simp only [marksAfter]
      split <;> simp [ih]

@[simp] theorem length_marks (p : Char → Bool) (t : Bytes) : (marks p t).length = t.length :=
  length_marksAfter p 0 false t

theorem marksAfter_ascii {skip i : Nat} {current : Bool} {t : Bytes} {b : UInt8}
    (hs : skip ≤ trailing t) (hb : t[i]? = some b) (ha : b < 0x80) :
    (marksAfter p skip current t)[i]? = some (holdsOf p b) := by
  induction t generalizing skip current i with
  | nil => simp at hb
  | cons x t ih =>
    cases skip with
    | succ skip =>
      obtain ⟨hx, hs⟩ := succ_le_trailing_cons.mp hs
      cases i with
      | zero => exact absurd hb (getElem?_zero_ne_ascii hx ha)
      | succ i => simpa [marksAfter] using ih hs hb
    | zero =>
      cases i with
      | zero =>
        rw [List.getElem?_cons_zero, Option.some.injEq] at hb
        rw [hb, marksAfter_zero_ascii ha]
        rfl
      | succ i =>
        cases hf : front? (x :: t) with
        | none => simpa [marksAfter, hf] using ih (Nat.zero_le _) hb
        | some cw =>
          obtain ⟨c, w⟩ := cw
          have hw := width_le hf
          simpa [marksAfter, hf] using ih (by omega) hb

theorem marks_ascii {i : Nat} {t : Bytes} {b : UInt8} (hb : t[i]? = some b) (ha : b < 0x80) :
    (marks p t)[i]? = some (holdsOf p b) :=
  marksAfter_ascii (Nat.zero_le _) hb ha

theorem marksAfter_zero (current : Bool) (t : Bytes) :
    marksAfter p 0 current t = marks p t := by
  cases t with
  | nil => rfl
  | cons b t => simp only [marks, marksAfter]

theorem marksAfter_append {skip : Nat} {current : Bool} {s t : Bytes} (hs : skip ≤ trailing s)
    (ht : trailing t = 0) :
    marksAfter p skip current (s ++ t) = marksAfter p skip current s ++ marks p t := by
  induction s generalizing skip current with
  | nil =>
    have h0 : skip = 0 := by simpa [trailing] using hs
    simp [h0, marksAfter_zero, marksAfter]
  | cons x s ih =>
    cases skip with
    | succ skip =>
      simp [marksAfter, ih (succ_le_trailing_cons.mp hs).2]
    | zero =>
      cases hf : front? (x :: s) with
      | none =>
        have hf' : front? (x :: (s ++ t)) = none := by rw [front?_append x ht, hf]
        simp [marksAfter, hf, hf', ih]
      | some cw =>
        obtain ⟨c, w⟩ := cw
        have hw := width_le hf
        have hf' : front? (x :: (s ++ t)) = some (c, w) := by rw [front?_append x ht, hf]
        simp [marksAfter, hf, hf', ih hw.2]

/-- Texts are read apart where the second does not begin inside a character. -/
theorem marks_append {s t : Bytes} (ht : trailing t = 0) :
    marks p (s ++ t) = marks p s ++ marks p t :=
  marksAfter_append (Nat.zero_le _) ht

end Bytes

namespace Utf8
open Bytes

theorem not_isContinuation_of_charsAfter? {skip i : Nat} {t : Bytes} {b c : UInt8}
    (hv : (charsAfter? skip t).isSome) (hs : skip ≤ trailing t) (hb : t[i]? = some b)
    (ha : b < 0x80) (hc : t[i + 1]? = some c) : isContinuation c = false := by
  induction t generalizing skip i with
  | nil => simp at hb
  | cons x t ih =>
    cases skip with
    | succ skip =>
      obtain ⟨hx, hs⟩ := succ_le_trailing_cons.mp hs
      cases i with
      | zero => exact absurd hb (getElem?_zero_ne_ascii hx ha)
      | succ i => exact ih (by simpa [charsAfter?] using hv) hs hb hc
    | zero =>
      cases hf : front? (x :: t) with
      | none => simp [charsAfter?, hf] at hv
      | some cw =>
        obtain ⟨d, w⟩ := cw
        have hw := width_le hf
        simp only [charsAfter?, hf, Option.isSome_map] at hv
        cases i with
        | succ i => exact ih hv (by omega) hb hc
        | zero =>
          rw [List.getElem?_cons_zero, Option.some.injEq] at hb
          rw [hb, front?_ascii ha] at hf
          simp only [Option.some.injEq, Prod.mk.injEq] at hf
          rw [← hf.2] at hv
          cases t with
          | nil => simp at hc
          | cons y t =>
            have hy : y = c := by simpa using hc
            rw [← hy]
            cases hcont : isContinuation y with
            | false => rfl
            | true => simp [charsAfter?, front?_of_isContinuation hcont] at hv

theorem isBoundary_succ_of_ascii {t : Bytes} (hv : isValid t = true) {i : Nat} {b : UInt8}
    (hb : t[i]? = some b) (ha : b < 0x80) : t.isBoundary (i + 1) = true := by
  have hi : i < t.length := (List.getElem?_eq_some_iff.mp hb).1
  cases hc : t[i + 1]? with
  | none =>
    have hl := List.getElem?_eq_none_iff.mp hc
    have : i + 1 = t.length := by omega
    simp [isBoundary, this]
  | some c =>
    have := @not_isContinuation_of_charsAfter? 0 i t b c hv (Nat.zero_le _) hb ha hc
    simp [isBoundary, hc, this]

end Utf8
end FieldTags
