import FieldTags.Proofs.Lexical.Alike
import FieldTags.Proofs.Message.Forest
import FieldTags.Proofs.Message.Occurrences

/-! What comments and strings contain has no influence on the messages of a text. A head in code is
code from its keyword to its brace, and a word character in front of it is code as well, so texts that
differ only in comments and strings have the same heads in code. -/
namespace FieldTags
open Utf8 Bytes
open String (utf8EncodeChar)

namespace Head

theorem not_delimiter_of_isStop {b : UInt8} (h : isStop b = false) :
    b ≠ Ascii.slash ∧ b ≠ Ascii.doubleQuote ∧ b ≠ Ascii.singleQuote ∧ b ≠ Ascii.asterisk := by
  refine ⟨?_, ?_, ?_, ?_⟩ <;> rintro rfl <;> exact absurd h (by decide)

end Head

theorem isWord_of_isDelimiter {b : UInt8} (h : Ascii.isDelimiter b = true) :
    b < 0x80 ∧ holdsOf isWord b = false := by
  have hcases : b = Ascii.newline ∨ b = Ascii.doubleQuote ∨ b = Ascii.singleQuote ∨
      b = Ascii.backslash ∨ b = Ascii.slash ∨ b = Ascii.asterisk := by
    simpa [Ascii.isDelimiter] using h
  rcases hcases with rfl | rfl | rfl | rfl | rfl | rfl <;> decide

theorem not_isDelimiter_of_isWord {c : Char} (hc : isWord c = true) :
    ∀ b ∈ utf8EncodeChar c, Ascii.isDelimiter b = false := by
  intro b hb
  refine Bool.eq_false_iff.mpr fun hdelim => ?_
  obtain ⟨hascii, hword⟩ := isWord_of_isDelimiter hdelim
  obtain ⟨x, s, henc, -, hs⟩ := exists_cons_encode c
  rw [henc] at hb
  rcases List.mem_cons.mp hb with rfl | hin
  · -- a character that begins with an ASCII byte is that byte
    have hfront := front?_encode c []
    rw [henc, List.cons_append, front?_ascii hascii, Option.some.injEq, Prod.mk.injEq] at hfront
    rw [holdsOf, hfront.1, hc] at hword
    simp at hword
  · have hcontinues := hs b hin
    rw [not_isContinuation_of_ascii hascii] at hcontinues
    simp at hcontinues

namespace AlikeFrom
variable {t u : Bytes}

theorem wordMayStart (h : AlikeFrom .code t u) {k : Nat} (hk : k ≤ t.length)
    (ht : trailing (t.drop k) = 0) (hu : trailing (u.drop k) = 0)
    (hcode : (Mode.run .code (t.take k)).isCode = true) :
    u.wordMayStart[k]? = some true ↔ t.wordMayStart[k]? = some true := by
  have hfront := h.take k
  have hmay := Head.wordMayStart_append_iff (s := t.take k) ht
  have hmay' := Head.wordMayStart_append_iff (s := u.take k) hu
  rw [List.take_append_drop, List.length_take_of_le hk] at hmay
  rw [List.take_append_drop, List.length_take_of_le (by rw [h.length_eq]; exact hk)] at hmay'
  rw [hmay, hmay', not_iff_not]
  have hsuffix : ∀ {s v : Bytes}, AlikeFrom .code s v → (Mode.run .code s).isCode = true →
      (∃ c, isWord c = true ∧ utf8EncodeChar c <:+ s) →
        ∃ c, isWord c = true ∧ utf8EncodeChar c <:+ v := by
    rintro s v hsv hs ⟨c, hc, r, rfl⟩
    exact ⟨c, hc, hsv.suffix (not_isDelimiter_of_isWord hc) hs⟩
  refine ⟨hsuffix hfront.symm ?_, hsuffix hfront hcode⟩
  rwa [hfront.run_eq]

theorem inCode (h : AlikeFrom .code t u) {g : Head} (hg : g.InCode t) : g.InCode u := by
  obtain ⟨hall, hmask⟩ := hg
  have hmask' : (codeMask u)[g.start]? = some true := by
    rw [codeMask, h.codeMaskFrom_eq]
    exact hmask
  obtain ⟨n, hl, hmay, hn⟩ := Head.mem_all.mp hall
  obtain ⟨s, r, hdrop, -, -, hs, hlen⟩ := Head.exists_of_mem_all hall
  have hcode := Mode.isCode_of_codeMask hmask
  have hbrace : Head.isStop Ascii.leftBrace = true := by decide
  -- the bytes of the head are code, so they stand in both texts
  obtain ⟨v, hv⟩ : ∃ v, u.drop g.start = s ++ Ascii.leftBrace :: v := by
    have hstretch := h.drop g.start
    rw [hdrop, List.append_cons] at hstretch
    obtain ⟨v, hv⟩ := hstretch.exists_append hcode fun b hb => by
      rcases List.mem_append.mp hb with hb | hb
      · exact Head.not_delimiter_of_isStop (hs b hb)
      · rw [List.mem_singleton.mp hb]
        decide
    exact ⟨v, by rw [hv]; simp⟩
  obtain ⟨q, rfl, -, -, -⟩ := Head.length?_eq_some_drop hs hlen
  have htrail : ∀ w : Bytes, trailing (Head.keyword ++ q ++ w) = 0 := fun w =>
    trailing_cons_of_ascii (by decide) _
  refine ⟨Head.mem_all.mpr ⟨n, hl, ?_, ?_⟩, hmask'⟩
  · refine (h.wordMayStart ?_ ?_ ?_ hcode).mpr hmay
    · have := (List.getElem?_eq_some_iff.mp (Head.getElem?_start hall)).1
      omega
    · rw [hdrop]
      exact htrail _
    · rw [hv]
      exact htrail _
  · rw [hv, Head.length?_append_stop hbrace, ← Head.length?_append_stop hbrace _ r, ← hdrop, hn]

theorem matchBrace_eq (h : AlikeFrom .code t u) {i : Nat} (hi : t[i]? = some Ascii.leftBrace)
    (hmask : (codeMask t)[i]? = some true) : matchBrace u i = matchBrace t i := by
  have hi' : u[i]? = some Ascii.leftBrace := by rw [h.getElem?_eq hmask, hi]
  have hrun : Mode.run .code (t.take (i + 1)) = .code := by
    rw [List.take_add_one, hi, Mode.run_append]
    exact Mode.next_of_plain (Mode.isCode_of_codeMask hmask) (by decide) (by decide) (by decide)
      (by decide)
  have hrest := h.drop (i + 1)
  rw [hrun] at hrest
  have hevents : eventsAt u (i + 1) = eventsAt t (i + 1) := hrest.eventsFrom_eq (i + 1)
  rw [matchBrace_of_leftBrace hi, matchBrace_of_leftBrace hi', eventsAt_of_leftBrace hi,
    eventsAt_of_leftBrace hi', hevents]

theorem mem_messageBlocks (h : AlikeFrom .code t u) {b : Block} (hb : b ∈ messageBlocks t) :
    b ∈ messageBlocks u := by
  obtain ⟨hbrace, hmask⟩ := (codeMask_braces hb).1
  obtain ⟨g, hg, hl, hm⟩ := mem_messageBlocks_iff.mp hb
  rw [← hl] at hm
  refine mem_messageBlocks_iff.mpr ⟨g, h.inCode hg, hl, ?_⟩
  rw [← hl, h.matchBrace_eq hbrace hmask, hm]

end AlikeFrom

/-- In two texts that are alike a scan finds the same events, ends in the same mode and shows the same
bytes. Statements begin at the same places, braces of code match alike, and the messages are the same. -/
theorem messageBlocks_of_alike {t u : Bytes} (h : Alike t u) :
    events u = events t ∧ Mode.run .code u = Mode.run .code t ∧ codeMask u = codeMask t ∧
    statementStarts u = statementStarts t ∧
    (∀ i, t[i]? = some Ascii.leftBrace → (codeMask t)[i]? = some true →
      matchBrace u i = matchBrace t i) ∧
    messageBlocks u = messageBlocks t := by
  have hfrom := h.alikeFrom
  have hevents : events u = events t := hfrom.eventsFrom_eq 0
  refine ⟨hevents, hfrom.run_eq, hfrom.codeMaskFrom_eq, ?_, fun i => hfrom.matchBrace_eq, ?_⟩
  · rw [statementStarts, statementStarts, hevents, hfrom.length_eq]
  · exact messageBlocks_eq (pairwise_messageBlocks t) fun b =>
      ⟨hfrom.symm.mem_messageBlocks, hfrom.mem_messageBlocks⟩

/-- The comment loses a message head and the string a brace, and another head is now seen in a comment. -/
theorem messageBlocks_of_alike_comments :
    let t := Ascii.word "/* message A \x7b */ message B \x7b b x = 1 [c = '\x7d']; \x7d // the end is near \x7d"
    let u := Ascii.word "/* nothing here*/ message B \x7b b x = 1 [c = 'y']; \x7d // message C \x7b\x7d    \x7d"
    Alike t u ∧ messageBlocks t = [⟨28, 49⟩] ∧ messageBlocks u = messageBlocks t := by
  intro t u
  have h : Alike t u := by decide +kernel
  exact ⟨h, by decide +kernel, (messageBlocks_of_alike h).2.2.2.2.2⟩

end FieldTags
