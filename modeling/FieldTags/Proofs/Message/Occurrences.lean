import FieldTags.Proofs.Message.Nesting
import FieldTags.Proofs.Schema.Openers
import FieldTags.Proofs.Text.Encoding

/-! Message blocks by the occurrences of message heads in a text, and the occurrences that are left
out because their braces are never closed. -/
namespace FieldTags
open Utf8 Bytes
open String (utf8EncodeChar)

/-- Of the characters before and after the offset exactly one is a word character. -/
def WordBoundary (t : Bytes) (i : Nat) : Prop :=
  (∃ c, isWord c = true ∧ utf8EncodeChar c <:+ t.take i) ↔
    ¬ ∃ c, isWord c = true ∧ utf8EncodeChar c <+: t.drop i

/-- At a word boundary at `i` stands the keyword, with blanks, a name, perhaps blanks again, and the
opening brace at `o`. -/
def Occurs (t : Bytes) (i o : Nat) : Prop :=
  WordBoundary t i ∧ ∃ (opener : Schema.Opener) (rest : Bytes),
    t.drop i = opener.text Head.keyword ++ rest ∧ o + 1 = i + (opener.text Head.keyword).length

namespace Head

theorem exists_name {t : Bytes} (h : 0 < nameLength t) :
    ∃ name : Schema.Name, t.take (nameLength t) = name.bytes := by
  cases t with
  | nil => simp [nameLength] at h
  | cons b t =>
    cases hb : Ascii.isNameStart b with
    | false => simp [nameLength, hb] at h
    | true =>
      have hall : ∀ c ∈ t.takeWhile Ascii.isNameByte, Ascii.isNameByte c = true :=
        fun c hc => List.all_eq_true.mp List.all_takeWhile c hc
      refine ⟨⟨b, ⟨_, hall⟩, hb⟩, ?_⟩
      have hlen : nameLength (b :: t) = (t.takeWhile Ascii.isNameByte).length + 1 := by
        simp [nameLength, hb, Nat.add_comm]
      rw [hlen, List.take_succ_cons, Schema.Name.bytes,
        ← List.prefix_iff_eq_take.mp (List.takeWhile_prefix _)]

theorem exists_blanks (t : Bytes) :
    ∃ blanks : Schema.CharRun isBlank, t.take (Bytes.run isBlank t) = blanks.bytes := by
  obtain ⟨cs, hcs, hall⟩ := exists_chars_run isBlank t
  exact ⟨⟨_, cs, chars?_eq_some_iff.mpr hcs, hall⟩, rfl⟩

theorem exists_opener {r : Bytes} (hgap : 0 < Bytes.run isBlank r)
    (hname : 0 < nameLength (r.drop (Bytes.run isBlank r))) (hstop : restStop r = r.length) :
    ∃ opener : Schema.Opener, opener.text keyword = keyword ++ r ++ [Ascii.leftBrace] := by
  obtain ⟨gap, hgapBytes⟩ := exists_blanks r
  obtain ⟨name, hnameBytes⟩ := exists_name hname
  have hle := run_le_length isBlank r
  simp only [restStop] at hstop
  generalize Bytes.run isBlank r = g at *
  generalize nameLength (r.drop g) = n at *
  obtain ⟨blanks, hblanks⟩ := exists_blanks (r.drop (g + n))
  have hne : gap.bytes ≠ [] := by
    rw [← hgapBytes]
    exact List.ne_nil_of_length_pos (by rw [List.length_take]; omega)
  rw [List.take_of_length_le (by rw [List.length_drop]; omega)] at hblanks
  have hr : r = gap.bytes ++ name.bytes ++ blanks.bytes := by
    rw [← hgapBytes, ← hnameBytes, ← hblanks, ← List.take_add, List.take_append_drop]
  refine ⟨⟨⟨gap, hne⟩, name, blanks⟩, ?_⟩
  simp [Schema.Opener.text, hr]

theorem length?_eq_some_iff {t : Bytes} {n : Nat} :
    length? t = some n ↔ ∃ (opener : Schema.Opener) (rest : Bytes),
      t = opener.text keyword ++ rest ∧ n = (opener.text keyword).length := by
  constructor
  · intro h
    obtain ⟨s, rest, rfl, rfl, hs, hlen⟩ := length?_eq_some h
    obtain ⟨r, rfl, hgap, hname, hstop⟩ := length?_eq_some_drop hs hlen
    obtain ⟨opener, hopener⟩ := exists_opener hgap hname hstop
    exact ⟨opener, rest, by rw [hopener]; simp, by simp [hopener, Nat.add_assoc]⟩
  · rintro ⟨opener, rest, rfl, rfl⟩
    exact opener.length?_text rest

theorem wordMayStart_append_iff {s u : Bytes} (hu : trailing u = 0) :
    (Bytes.wordMayStart (s ++ u))[s.length]? = some true ↔
      ¬ ∃ c, isWord c = true ∧ utf8EncodeChar c <:+ s := by
  have hlast : (Bytes.wordMayStart (s ++ u))[s.length]? =
      (true :: (Bytes.marks isWord s).map (! ·)).getLast? := by
    rw [Parted.wordMayStart_left hu (Nat.le_refl _), List.getLast?_eq_getElem?]
    simp [wordMayStart, length_marks]
  rw [hlast, ← getLast?_marks, List.getLast?_cons, List.getLast?_map]
  cases (marks isWord s).getLast? with
  | none => simp
  | some mark => cases mark <;> simp

theorem mem_all_iff_occurs {t : Bytes} {h : Head} : h ∈ all t ↔ Occurs t h.start h.lbrace := by
  have hboundary : ∀ (opener : Schema.Opener) (rest : Bytes),
      t.drop h.start = opener.text keyword ++ rest →
        (t.wordMayStart[h.start]? = some true ↔ WordBoundary t h.start) := by
    intro opener rest hdrop
    obtain ⟨u, hu⟩ : ∃ u, t.drop h.start = 0x6D :: u := ⟨_, hdrop⟩
    have hle : h.start ≤ t.length := by
      by_contra hgt
      rw [List.drop_eq_nil_of_le (by omega)] at hu
      simp at hu
    have hnext : ∃ c, isWord c = true ∧ utf8EncodeChar c <+: t.drop h.start :=
      ⟨'m', by decide, by rw [hu]; exact ⟨u, rfl⟩⟩
    have htrail : trailing (t.drop h.start) = 0 := by
      rw [hu]
      exact trailing_cons_of_ascii (by decide) u
    have hmay := wordMayStart_append_iff (s := t.take h.start) htrail
    rw [List.take_append_drop, List.length_take, Nat.min_eq_left hle] at hmay
    rw [hmay, WordBoundary]
    simp only [hnext, not_true_eq_false, iff_false]
  rw [mem_all]
  simp only [length?_eq_some_iff]
  constructor
  · rintro ⟨_, hl, hmay, opener, rest, hdrop, rfl⟩
    refine ⟨(hboundary opener rest hdrop).mp hmay, opener, rest, hdrop, ?_⟩
    have hpos : 0 < (opener.text keyword).length := by
      rw [Schema.Opener.text, List.length_append]
      exact Nat.succ_pos _
    omega
  · rintro ⟨hword, opener, rest, hdrop, hl⟩
    exact ⟨_, by omega, (hboundary opener rest hdrop).mpr hword, opener, rest, hdrop, rfl⟩

end Head

theorem exists_block_of_occurs {t : Bytes} {a : Block} {i o : Nat} (ha : a ∈ messageBlocks t)
    (hcode : (codeMask t)[i]? = some true) (hoccurs : Occurs t i o)
    (hin : a.containsOffset o = true) :
    ∃ b ∈ messageBlocks t, b.lbrace = o ∧ a.contains b = true := by
  have hhead : ⟨i, o⟩ ∈ Head.all t := Head.mem_all_iff_occurs.mpr hoccurs
  simp only [Block.containsOffset, Bool.and_eq_true, decide_eq_true_eq] at hin
  rcases matchBrace_of_lt ha (Head.getElem?_lbrace hhead) (Head.run_code_lbrace hhead hcode)
    hin.1 with hout | ⟨stop, hstop, hlt⟩
  · exact absurd hout (Nat.not_lt_of_gt hin.2)
  · refine ⟨⟨o, stop⟩, mem_messageBlocks.mpr ⟨_, hhead, hcode, rfl, hstop⟩, rfl, ?_⟩
    simp [Block.contains, hin.1, hlt]

theorem unmatched_of_mem_sightings {t : Bytes} {s : Sighting} {e : BraceError}
    (hs : s ∈ sightings t) (he : s.finding = .unmatched e) :
    s.head ∈ Head.all t ∧ (codeMask t)[s.head.start]? = some true ∧
      matchBrace t s.head.lbrace = .error e := by
  obtain ⟨h, hh, rfl⟩ := List.mem_map.mp hs
  by_cases hmask : (codeMask t)[h.start]? = some true
  · cases hm : matchBrace t h.lbrace with
    | ok stop => simp [Sighting.ofHead, hmask, hm] at he
    | error e' =>
      obtain rfl : e' = e := by simpa [Sighting.ofHead, hmask, hm] using he
      have hhead : (Sighting.ofHead t (codeMask t) h).head = h := by
        simp [Sighting.ofHead, hmask, hm]
      rw [hhead]
      exact ⟨hh, hmask, hm⟩
  · simp [Sighting.ofHead, hmask] at he

/-- The message blocks of a text come in the order of their opening braces, and they are the matched
braces of the heads that occur in code. Inside a message block no brace of such a head is unmatched. -/
theorem messageBlocks_complete (t : Bytes) :
    (messageBlocks t).Pairwise (·.lbrace < ·.lbrace) ∧
    (∀ b, b ∈ messageBlocks t ↔ ∃ i, (codeMask t)[i]? = some true ∧ Occurs t i b.lbrace ∧
      matchBrace t b.lbrace = .ok b.rbrace) ∧
    (∀ a ∈ messageBlocks t, ∀ i o, (codeMask t)[i]? = some true → Occurs t i o →
      a.containsOffset o = true → ∃ b ∈ messageBlocks t, b.lbrace = o ∧ a.contains b = true) ∧
    ∀ a ∈ messageBlocks t, ∀ s ∈ sightings t, ∀ e, s.finding = .unmatched e →
      a.containsOffset s.head.lbrace = false := by
  refine ⟨pairwise_messageBlocks t, fun b => ?_, ?_, ?_⟩
  · rw [mem_messageBlocks]
    constructor
    · rintro ⟨h, hh, hcode, hl, hmatch⟩
      rw [← hl] at hmatch
      exact ⟨h.start, hcode, hl ▸ Head.mem_all_iff_occurs.mp hh, hmatch⟩
    · rintro ⟨i, hcode, hoccurs, hmatch⟩
      exact ⟨⟨i, b.lbrace⟩, Head.mem_all_iff_occurs.mpr hoccurs, hcode, rfl, hmatch⟩
  · intro a ha i o hcode hoccurs hin
    exact exists_block_of_occurs ha hcode hoccurs hin
  · intro a ha s hs e he
    obtain ⟨hhead, hcode, hnone⟩ := unmatched_of_mem_sightings hs he
    refine Bool.eq_false_iff.mpr fun hin => ?_
    obtain ⟨b, hb, hl, -⟩ :=
      exists_block_of_occurs ha hcode (Head.mem_all_iff_occurs.mp hhead) hin
    rw [← hl, matchBrace_of_mem hb] at hnone
    simp at hnone

end FieldTags
