import FieldTags.Message.Head
import FieldTags.Proofs.Lexical.Scan
import FieldTags.Proofs.Text.Characters
import Mathlib.Data.List.Sort

/-! Heads of messages. A head ends at the first byte after its start that cannot belong to a name
or a gap, so it is read without regard to what follows, and no two heads overlap. -/
namespace FieldTags
namespace Head
open Utf8 Bytes

/-- A byte that ends a head or shows that there is none: no name byte and no part of a blank. -/
def isStop (c : UInt8) : Bool := c < 0x80 && !Ascii.isNameByte c && !holdsOf isBlank c

theorem isStop_iff {c : UInt8} :
    isStop c = true ↔ c < 0x80 ∧ Ascii.isNameByte c = false ∧ holdsOf isBlank c = false := by
  simp [isStop, and_assoc]

theorem mem_allFrom {h : Head} {position : Nat} {mayStart : List Bool} {t : Bytes} :
    h ∈ allFrom position mayStart t ↔ ∃ i n, h = ⟨position + i, position + i + n - 1⟩ ∧
      mayStart[i]? = some true ∧ length? (t.drop i) = some n := by
  have hnil : length? [] = none := by decide
  induction t generalizing position mayStart with
  | nil => cases mayStart <;> simp [allFrom, hnil]
  | cons b t ih =>
    cases mayStart with
    | nil => simp [allFrom]
    | cons may mayStart =>
      rw [allFrom, List.mem_append]
      constructor
      · rintro (hh | hh)
        · cases may with
          | false => simp at hh
          | true =>
            obtain ⟨n, hn, rfl⟩ :
                ∃ n, length? (b :: t) = some n ∧ ⟨position, position + n - 1⟩ = h := by
              simpa using hh
            exact ⟨0, n, by simp, by simp, hn⟩
        · obtain ⟨i, n, rfl, hm, hn⟩ := ih.mp hh
          exact ⟨i + 1, n, by simp only [Nat.add_assoc, Nat.add_comm 1], by simpa using hm, hn⟩
      · rintro ⟨i, n, rfl, hm, hn⟩
        cases i with
        | zero =>
          have hmay : may = true := by simpa using hm
          left
          simp only [List.drop_zero] at hn
          simp [hmay, hn]
        | succ i =>
          right
          exact ih.mpr
            ⟨i, n, by simp only [Nat.add_assoc, Nat.add_comm 1], by simpa using hm, hn⟩

theorem mem_all {h : Head} {t : Bytes} :
    h ∈ all t ↔ ∃ n, h.lbrace = h.start + n - 1 ∧ t.wordMayStart[h.start]? = some true ∧
      length? (t.drop h.start) = some n := by
  rw [all, mem_allFrom]
  constructor
  · rintro ⟨i, n, rfl, hm, hn⟩
    exact ⟨n, by simp, by simpa using hm, by simpa using hn⟩
  · rintro ⟨n, hl, hm, hn⟩
    obtain ⟨start, lbrace⟩ := h
    exact ⟨start, n, by simpa using hl, hm, hn⟩

theorem pairwise_allFrom (position : Nat) (mayStart : List Bool) (t : Bytes) :
    (allFrom position mayStart t).Pairwise (·.start < ·.start) := by
  induction t generalizing position mayStart with
  | nil => cases mayStart <;> exact List.Pairwise.nil
  | cons b t ih =>
    cases mayStart with
    | nil => exact List.Pairwise.nil
    | cons may mayStart =>
      rw [allFrom, List.pairwise_append]
      refine ⟨?_, ih _ _, ?_⟩
      · generalize (if may = true then length? (b :: t) else none) = o
        cases o <;> simp
      · intro g hg h hh
        obtain ⟨i, n, rfl, -, -⟩ := mem_allFrom.mp hh
        obtain ⟨m, -, rfl⟩ := by simpa using hg
        simp only
        omega

theorem pairwise_all (t : Bytes) : (all t).Pairwise (·.start < ·.start) :=
  pairwise_allFrom 0 _ t

/-! Reading a head up to a stop byte -/

theorem run_append_stop {p : Char → Bool} {c : UInt8} (ha : c < 0x80) (hp : holdsOf p c = false)
    (s t : Bytes) : Bytes.run p (s ++ c :: t) = Bytes.run p s := by
  suffices h : ∀ skip, skip ≤ trailing s → runAfter p skip (s ++ c :: t) = runAfter p skip s from
    h 0 (Nat.zero_le _)
  induction s with
  | nil =>
    intro skip hs
    have h0 : skip = 0 := by simpa [trailing] using hs
    subst h0
    rw [List.nil_append, runAfter_zero_ascii ha, hp]
    rfl
  | cons x s ih =>
    intro skip hs
    cases skip with
    | succ skip =>
      rw [trailing_cons] at hs
      cases hx : isContinuation x with
      | false => simp [hx] at hs
      | true =>
        simp only [hx, if_true] at hs
        rw [List.cons_append, runAfter, runAfter, ih skip (by omega)]
    | zero =>
      have hf := front?_append x (s := s) (trailing_cons_of_ascii ha t)
      rw [List.cons_append, runAfter, runAfter, hf]
      cases hcw : front? (x :: s) with
      | none => rfl
      | some cw =>
        obtain ⟨d, w⟩ := cw
        simp only [ih (w - 1) (width_le hcw).2]

theorem nameLength_append_stop {c : UInt8} (hc : Ascii.isNameByte c = false) (s t : Bytes) :
    nameLength (s ++ c :: t) = nameLength s := by
  have hs : Ascii.isNameStart c = false := by
    rw [Ascii.isNameByte, Bool.or_eq_false_iff] at hc
    exact hc.1
  cases s with
  | nil => simp [nameLength, hs]
  | cons b s =>
    cases hb : Ascii.isNameStart b with
    | false => simp [nameLength, hb]
    | true =>
      simp only [List.cons_append, nameLength, hb, if_true]
      congr 2
      induction s with
      | nil => simp [hc]
      | cons x s ih => simp only [List.cons_append, List.takeWhile_cons, ih]

theorem nameLength_le_length (t : Bytes) : nameLength t ≤ t.length := by
  cases t with
  | nil => exact Nat.le_refl 0
  | cons b t =>
    have h := (List.takeWhile_sublist (l := t) Ascii.isNameByte).length_le
    simp only [nameLength, List.length_cons]
    split <;> omega

/-- The length of a head's rest, read in the bytes before its first stop byte. -/
def restStop (s : Bytes) : Nat :=
  let gap := Bytes.run isBlank s
  let name := nameLength (s.drop gap)
  gap + name + Bytes.run isBlank (s.drop (gap + name))

theorem restStop_le_length (s : Bytes) : restStop s ≤ s.length := by
  have hg := run_le_length isBlank s
  have hn := nameLength_le_length (s.drop (Bytes.run isBlank s))
  have hb := run_le_length isBlank
    (s.drop (Bytes.run isBlank s + nameLength (s.drop (Bytes.run isBlank s))))
  simp only [List.length_drop] at hn hb
  simp only [restStop]
  omega

theorem restLength?_append_stop {c : UInt8} (hc : isStop c = true) (s t : Bytes) :
    restLength? (s ++ c :: t) =
      if 0 < Bytes.run isBlank s ∧ 0 < nameLength (s.drop (Bytes.run isBlank s)) ∧
          (s ++ [c])[restStop s]? = some Ascii.leftBrace then some (restStop s + 1) else none := by
  obtain ⟨ha, hn, hb⟩ := isStop_iff.mp hc
  have hg := run_le_length isBlank s
  have hl := nameLength_le_length (s.drop (Bytes.run isBlank s))
  rw [List.length_drop] at hl
  have hd : ∀ k, k ≤ s.length → (s ++ c :: t).drop k = s.drop k ++ c :: t := by
    intro k hk
    rw [List.drop_append_of_le_length hk]
  have hget : (s ++ c :: t)[restStop s]? = (s ++ [c])[restStop s]? := by
    have hle := restStop_le_length s
    rcases Nat.lt_or_eq_of_le hle with hlt | heq
    · rw [List.getElem?_append_left hlt, List.getElem?_append_left hlt]
    · rw [heq]
      simp
  unfold restLength?
  simp only [run_append_stop ha hb]
  simp only [hd _ hg, nameLength_append_stop hn]
  have hgl : Bytes.run isBlank s + nameLength (s.drop (Bytes.run isBlank s)) ≤ s.length := by omega
  simp only [hd _ hgl, run_append_stop ha hb]
  have hstop : Bytes.run isBlank s + nameLength (s.drop (Bytes.run isBlank s)) +
      Bytes.run isBlank (s.drop (Bytes.run isBlank s + nameLength (s.drop (Bytes.run isBlank s)))) =
        restStop s := rfl
  simp only [hstop, hget]

theorem isStop_of_mem_keyword : ∀ b ∈ keyword, isStop b = false := by
  decide +kernel

theorem isPrefixOf_append_of_not_mem {w : Bytes} {c : UInt8} (hc : c ∉ w) (s t : Bytes) :
    w.isPrefixOf (s ++ c :: t) = w.isPrefixOf s := by
  induction w generalizing s with
  | nil => rfl
  | cons b w ih =>
    have hbc : (b == c) = false := by
      rw [beq_eq_false_iff_ne]
      rintro rfl
      exact hc (by simp)
    cases s with
    | nil => simp [List.isPrefixOf, hbc]
    | cons x s =>
      have hw : c ∉ w := fun hm => hc (by simp [hm])
      rw [List.cons_append, List.isPrefixOf, List.isPrefixOf, ih hw]

theorem keyword_isPrefixOf_append_stop {c : UInt8} (hc : isStop c = true) (s t : Bytes) :
    keyword.isPrefixOf (s ++ c :: t) = keyword.isPrefixOf s := by
  apply isPrefixOf_append_of_not_mem
  intro hm
  rw [isStop_of_mem_keyword c hm] at hc
  simp at hc

/-- What a head's length is, read in the bytes before its first stop byte and that byte. -/
theorem length?_append_stop {c : UInt8} (hc : isStop c = true) (s t : Bytes) :
    length? (s ++ c :: t) = length? (s ++ [c]) := by
  unfold length?
  rw [keyword_isPrefixOf_append_stop hc, keyword_isPrefixOf_append_stop hc]
  by_cases hk : keyword.isPrefixOf s = true
  · have hl : keyword.length ≤ s.length := (List.isPrefixOf_iff_prefix.mp hk).length_le
    rw [List.drop_append_of_le_length hl, List.drop_append_of_le_length hl,
      restLength?_append_stop hc, restLength?_append_stop hc]
  · simp [hk]

theorem length?_append_of_ne {c : UInt8} (hc : isStop c = true) (hb : c ≠ Ascii.leftBrace)
    (s t : Bytes) : length? (s ++ c :: t) = length? s := by
  unfold length?
  rw [keyword_isPrefixOf_append_stop hc]
  by_cases hk : keyword.isPrefixOf s = true
  · have hl : keyword.length ≤ s.length := (List.isPrefixOf_iff_prefix.mp hk).length_le
    rw [List.drop_append_of_le_length hl, restLength?_append_stop hc]
    generalize s.drop keyword.length = r
    have hget : (r ++ [c])[restStop r]? = some Ascii.leftBrace ↔
        r[restStop r]? = some Ascii.leftBrace := by
      rcases Nat.lt_or_eq_of_le (restStop_le_length r) with hlt | heq
      · rw [List.getElem?_append_left hlt]
      · rw [heq]
        simp [hb]
    simp only [hget]
    rfl
  · simp [hk]

theorem length?_eq_some_of_stop {c : UInt8} {s t : Bytes} {n : Nat} (hc : isStop c = true)
    (hs : ∀ b ∈ s, isStop b = false) (h : length? (s ++ c :: t) = some n) :
    c = Ascii.leftBrace ∧ n = s.length + 1 := by
  have hbrace : isStop Ascii.leftBrace = true := by decide
  unfold length? at h
  rw [keyword_isPrefixOf_append_stop hc] at h
  by_cases hk : keyword.isPrefixOf s = true
  · have hl : keyword.length ≤ s.length := (List.isPrefixOf_iff_prefix.mp hk).length_le
    rw [if_pos hk, List.drop_append_of_le_length hl, restLength?_append_stop hc] at h
    have hr : ∀ b ∈ s.drop keyword.length, isStop b = false := fun b hb =>
      hs b (List.mem_of_mem_drop hb)
    have hrl : (s.drop keyword.length).length = s.length - keyword.length := List.length_drop
    generalize s.drop keyword.length = r at h hr hrl
    split at h
    · rename_i hcond
      obtain ⟨-, -, hget⟩ := hcond
      simp only [Option.map_some, Option.some.injEq] at h
      rcases Nat.lt_or_eq_of_le (restStop_le_length r) with hlt | heq
      · rw [List.getElem?_append_left hlt] at hget
        have := hr _ (List.mem_of_getElem? hget)
        rw [hbrace] at this
        simp at this
      · rw [heq] at hget h
        exact ⟨by simpa using hget, by omega⟩
    · simp at h
  · simp [hk] at h

theorem length?_eq_some {t : Bytes} {n : Nat} (h : length? t = some n) :
    ∃ s r, t = s ++ Ascii.leftBrace :: r ∧ n = s.length + 1 ∧ (∀ b ∈ s, isStop b = false) ∧
      length? (s ++ [Ascii.leftBrace]) = some n := by
  have ht : ∀ b ∈ t.takeWhile (!isStop ·), isStop b = false := by
    intro b hb
    have := List.all_eq_true.mp (List.all_takeWhile (l := t) (p := (!isStop ·))) b hb
    simpa using this
  have hsplit := List.takeWhile_append_dropWhile (l := t) (p := (!isStop ·))
  generalize t.takeWhile (!isStop ·) = s at ht hsplit
  cases hd : t.dropWhile (!isStop ·) with
  | nil =>
    exfalso
    rw [hd, List.append_nil] at hsplit
    -- a semicolon put after the text does not change what is read in it
    have hsemi : isStop Ascii.semicolon = true := by decide
    have hne : Ascii.semicolon ≠ Ascii.leftBrace := by decide
    rw [← hsplit, ← length?_append_of_ne hsemi hne s []] at h
    exact hne (length?_eq_some_of_stop hsemi ht h).1
  | cons c r =>
    have hc : isStop c = true := by
      have := List.head_dropWhile_not (l := t) (!isStop ·) (by simp [hd])
      simpa [hd] using this
    rw [hd] at hsplit
    rw [← hsplit] at h
    obtain ⟨rfl, hn⟩ := length?_eq_some_of_stop hc ht h
    exact ⟨s, r, hsplit.symm, hn, ht, by rw [← length?_append_stop hc s r, h]⟩

theorem length?_eq_some_drop {s : Bytes} {n : Nat} (hs : ∀ b ∈ s, isStop b = false)
    (h : length? (s ++ [Ascii.leftBrace]) = some n) :
    ∃ r, s = keyword ++ r ∧ 0 < Bytes.run isBlank r ∧
      0 < nameLength (r.drop (Bytes.run isBlank r)) ∧
      restStop r = r.length := by
  have hbrace : isStop Ascii.leftBrace = true := by decide
  have hn := (length?_eq_some_of_stop hbrace hs h).2
  unfold length? at h
  rw [keyword_isPrefixOf_append_stop hbrace] at h
  by_cases hk : keyword.isPrefixOf s = true
  · obtain ⟨r, hr⟩ := List.isPrefixOf_iff_prefix.mp hk
    refine ⟨r, hr.symm, ?_⟩
    rw [if_pos hk, ← hr, List.append_assoc, List.drop_left, restLength?_append_stop hbrace] at h
    split at h
    · rename_i hcond
      obtain ⟨hg, hname, -⟩ := hcond
      simp only [Option.map_some, Option.some.injEq] at h
      rw [← hr, List.length_append] at hn
      exact ⟨hg, hname, by omega⟩
    · simp at h
  · simp [hk] at h

end Head
end FieldTags
