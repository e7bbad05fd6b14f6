import FieldTags.Proofs.Message.Nesting

/-! Texts put together from parts. A part begins and ends in code, between words, and no head
crosses its end: its message blocks and those of the text behind it are found independently. -/
namespace FieldTags

def Head.InCode (t : Bytes) (h : Head) : Prop :=
  h ∈ Head.all t ∧ (codeMask t)[h.start]? = some true

def Head.shift (k : Nat) (h : Head) : Head := ⟨k + h.start, k + h.lbrace⟩

theorem mem_messageBlocks_iff {t : Bytes} {b : Block} :
    b ∈ messageBlocks t ↔
      ∃ h, Head.InCode t h ∧ b.lbrace = h.lbrace ∧ matchBrace t h.lbrace = .ok b.rbrace := by
  rw [mem_messageBlocks]
  constructor
  · rintro ⟨h, hh, hmask, hl, hm⟩
    exact ⟨h, ⟨hh, hmask⟩, hl, hm⟩
  · rintro ⟨h, ⟨hh, hmask⟩, hl, hm⟩
    exact ⟨h, hh, hmask, hl, hm⟩

/-- The text leads a scan in code from `a` open blocks to `b`, whatever lies around it. -/
def Depth (t : Bytes) (a b : Nat) : Prop :=
  ∀ depth position es, 0 < depth →
    closing? (depth + a) (eventsFrom .code position t ++ es) = closing? (depth + b) es

theorem Depth.nil (a : Nat) : Depth [] a a := fun _ _ _ _ => rfl

theorem Depth.append {s t : Bytes} {a b c : Nat} (hcode : Mode.run .code s = .code)
    (hs : Depth s a b) (ht : Depth t b c) : Depth (s ++ t) a c := by
  intro depth position es hd
  rw [eventsFrom_append, hcode, List.append_assoc, hs depth position _ hd, ht depth _ es hd]

theorem Depth.add {t : Bytes} {a b : Nat} (h : Depth t a b) (k : Nat) :
    Depth t (k + a) (k + b) := by
  intro depth position es hd
  rw [← Nat.add_assoc, ← Nat.add_assoc]
  exact h (depth + k) position es (by omega)

theorem closing?_append_left {depth : Nat} {es : List Event} {stop : Nat}
    (h : closing? depth es = some stop) (fs : List Event) :
    closing? depth (es ++ fs) = some stop := by
  induction es generalizing depth with
  | nil => simp [closing?] at h
  | cons e es ih =>
    obtain ⟨kind, offset⟩ := e
    cases kind with
    | closeBrace =>
      by_cases hd : depth ≤ 1
      · simpa [closing?, hd] using h
      · have h : closing? (depth - 1) es = some stop := by simpa [closing?, hd] using h
        simpa [closing?, hd] using ih h
    | openBrace => exact ih h
    | semicolon => exact ih h
    | lineBreak => exact ih h
    | commentEnd => exact ih h

theorem matchBrace_append_left {s : Bytes} {i stop : Nat} (h : matchBrace s i = .ok stop)
    (t : Bytes) : matchBrace (s ++ t) i = .ok stop := by
  obtain ⟨hi, hc⟩ := matchBrace_eq_ok.mp h
  have hlt := (List.getElem?_eq_some_iff.mp hi).1
  refine matchBrace_eq_ok.mpr ⟨by rwa [List.getElem?_append_left hlt], ?_⟩
  rw [eventsAt_append (Nat.le_of_lt hlt)]
  exact closing?_append_left hc _

theorem matchBrace_append_right (s t : Bytes) {i stop : Nat} :
    matchBrace (s ++ t) (s.length + i) = .ok stop ↔
      ∃ j, matchBrace t i = .ok j ∧ stop = s.length + j := by
  have hget : (s ++ t)[s.length + i]? = t[i]? := by
    rw [List.getElem?_append_right (by omega), Nat.add_sub_cancel_left]
  simp only [matchBrace_eq_ok, hget, eventsAt_append_right, closing?_map_move,
    Option.map_eq_some_iff]
  constructor
  · rintro ⟨hi, j, hj, rfl⟩
    exact ⟨j, ⟨hi, hj⟩, rfl⟩
  · rintro ⟨j, ⟨hi, hj⟩, rfl⟩
    exact ⟨hi, j, hj, rfl⟩

/-- What a text has that ends in code between two words, with no head across its end. -/
structure Parted (t : Bytes) : Prop where
  code : Mode.run .code t = .code
  last : ∃ s c, t = s ++ [c] ∧ c < 0x80 ∧ Bytes.holdsOf isWord c = false
  heads : ∀ i, (codeMask t)[i]? = some true →
    ∀ u, Head.length? (t.drop i ++ u) = Head.length? (t.drop i)

theorem codeMask_append_left {s : Bytes} (hs : Mode.run .code s = .code) (t : Bytes) {i : Nat}
    (hi : i < s.length) : (codeMask (s ++ t))[i]? = (codeMask s)[i]? := by
  rw [codeMask, codeMaskFrom_append_of_seam (by simp [hs]),
    List.getElem?_append_left (by simpa using hi)]
  rfl

theorem codeMask_append_right {s : Bytes} (hs : Mode.run .code s = .code) (t : Bytes) (i : Nat) :
    (codeMask (s ++ t))[s.length + i]? = (codeMask t)[i]? := by
  rw [codeMask, codeMaskFrom_append, hs]
  rfl

namespace Parted
open Utf8 Bytes
variable {s t : Bytes}

theorem wordMayStart_left (ht : trailing t = 0) {i : Nat} (hi : i ≤ s.length) :
    (s ++ t).wordMayStart[i]? = s.wordMayStart[i]? := by
  rw [wordMayStart, wordMayStart, marks_append ht, List.map_append]
  cases i with
  | zero => rfl
  | succ i =>
    have hlen := length_marks isWord s
    rw [List.getElem?_cons_succ, List.getElem?_cons_succ,
      List.getElem?_append_left (by rw [List.length_map]; omega)]

theorem wordMayStart_right (hs : Parted s) (ht : trailing t = 0) (i : Nat) :
    (s ++ t).wordMayStart[s.length + i]? = t.wordMayStart[i]? := by
  cases i with
  | zero =>
    obtain ⟨r, c, rfl, hc, hword⟩ := hs.last
    have hget : (r ++ [c])[r.length]? = some c := by simp
    have hmay := Head.getElem?_wordMayStart_succ hget hc
    rw [Nat.add_zero, wordMayStart_left ht (Nat.le_refl _), List.length_append,
      List.length_singleton, hmay, hword]
    rfl
  | succ i =>
    have hlen := length_marks isWord s
    rw [wordMayStart, wordMayStart, marks_append ht, List.map_append, ← Nat.add_assoc,
      List.getElem?_cons_succ, List.getElem?_cons_succ,
      List.getElem?_append_right (by rw [List.length_map]; omega), List.length_map, hlen,
      Nat.add_sub_cancel_left]

theorem inCode_append_left (hs : Parted s) (ht : trailing t = 0) {h : Head}
    (hlt : h.start < s.length) : Head.InCode (s ++ t) h ↔ Head.InCode s h := by
  have hmask := codeMask_append_left hs.code t hlt
  have hmay := wordMayStart_left (s := s) ht (Nat.le_of_lt hlt)
  have hdrop : (s ++ t).drop h.start = s.drop h.start ++ t :=
    List.drop_append_of_le_length (Nat.le_of_lt hlt)
  simp only [Head.InCode, Head.mem_all, hmask, hmay, hdrop]
  refine and_congr_left fun hcode => exists_congr fun n => ?_
  rw [hs.heads _ hcode]

theorem inCode_append_right (hs : Parted s) (ht : trailing t = 0) (g : Head) :
    Head.InCode (s ++ t) (g.shift s.length) ↔ Head.InCode t g := by
  have hmask := codeMask_append_right hs.code t g.start
  have hmay := wordMayStart_right hs ht g.start
  have hdrop : (s ++ t).drop (s.length + g.start) = t.drop g.start := by
    rw [← List.drop_drop, List.drop_left]
  simp only [Head.InCode, Head.mem_all, Head.shift, hmask, hmay, hdrop]
  refine and_congr_left fun _ => exists_congr fun n => and_congr_left fun hn => ?_
  obtain ⟨u, -, -, rfl, -⟩ := Head.length?_eq_some hn.2
  omega

theorem inCode_append (hs : Parted s) (ht : trailing t = 0) {h : Head} :
    Head.InCode (s ++ t) h ↔
      Head.InCode s h ∨ ∃ g, Head.InCode t g ∧ h = g.shift s.length := by
  by_cases hlt : h.start < s.length
  · have hno : ¬ ∃ g, Head.InCode t g ∧ h = g.shift s.length := by
      rintro ⟨g, -, rfl⟩
      simp only [Head.shift] at hlt
      omega
    rw [or_iff_left hno, hs.inCode_append_left ht hlt]
  · have hno : ¬ Head.InCode s h := by
      rintro ⟨-, hcode⟩
      have hlen := (List.getElem?_eq_some_iff.mp hcode).1
      rw [length_codeMask] at hlen
      exact hlt hlen
    rw [or_iff_right hno]
    constructor
    · intro hh
      obtain ⟨r, u, -, hstop, hpos, -, -⟩ := Head.exists_of_mem_all hh.1
      have hshift : h = Head.shift s.length ⟨h.start - s.length, h.lbrace - s.length⟩ := by
        obtain ⟨start, lbrace⟩ := h
        simp only at hlt hstop
        simp only [Head.shift, Head.mk.injEq]
        omega
      rw [hshift] at hh
      exact ⟨_, (hs.inCode_append_right ht _).mp hh, hshift⟩
    · rintro ⟨g, hg, rfl⟩
      exact (hs.inCode_append_right ht g).mpr hg

end Parted

/-- Every message that begins in the text ends there. -/
def Matched (t : Bytes) : Prop := ∀ h, Head.InCode t h → ∃ stop, matchBrace t h.lbrace = .ok stop

theorem Matched.append {s t : Bytes} (hs : Parted s) (ht : Utf8.trailing t = 0) (hms : Matched s)
    (hmt : Matched t) : Matched (s ++ t) := by
  intro h hh
  rcases (hs.inCode_append ht).mp hh with hh | ⟨g, hg, rfl⟩
  · obtain ⟨stop, hstop⟩ := hms h hh
    exact ⟨stop, matchBrace_append_left hstop t⟩
  · obtain ⟨stop, hstop⟩ := hmt g hg
    exact ⟨s.length + stop, (matchBrace_append_right s t).mpr ⟨stop, hstop, rfl⟩⟩

theorem messageBlocks_append {s t : Bytes} (hs : Parted s) (ht : Utf8.trailing t = 0)
    (hms : Matched s) :
    messageBlocks (s ++ t) = messageBlocks s ++ (messageBlocks t).map (Block.shift s.length) := by
  have hsorted : (messageBlocks s ++ (messageBlocks t).map (Block.shift s.length)).Pairwise
      (·.lbrace < ·.lbrace) := by
    rw [List.pairwise_append, List.pairwise_map]
    refine ⟨pairwise_messageBlocks s, (pairwise_messageBlocks t).imp ?_, ?_⟩
    · intro a b hab
      simp only [Block.shift]
      omega
    · intro a ha b hb
      obtain ⟨c, -, rfl⟩ := List.mem_map.mp hb
      obtain ⟨hr, hlt⟩ := getElem?_rbrace ha
      have := (List.getElem?_eq_some_iff.mp hr).1
      simp only [Block.shift]
      omega
  refine messageBlocks_eq hsorted fun b => ?_
  rw [List.mem_append, List.mem_map]
  simp only [mem_messageBlocks_iff, hs.inCode_append ht]
  constructor
  · rintro ⟨h, hh | ⟨g, hg, rfl⟩, hl, hm⟩
    · obtain ⟨stop, hstop⟩ := hms h hh
      rw [matchBrace_append_left hstop t, Except.ok.injEq] at hm
      exact Or.inl ⟨h, hh, hl, by rw [hstop, hm]⟩
    · obtain ⟨j, hj, hr⟩ := (matchBrace_append_right s t).mp hm
      refine Or.inr ⟨⟨g.lbrace, j⟩, ⟨g, hg, rfl, hj⟩, ?_⟩
      obtain ⟨lbrace, rbrace⟩ := b
      simp only [Head.shift] at hl hr
      simp only [Block.shift, hl, hr]
  · rintro (⟨h, hh, hl, hm⟩ | ⟨c, ⟨g, hg, hl, hm⟩, rfl⟩)
    · exact ⟨h, Or.inl hh, hl, matchBrace_append_left hm t⟩
    · refine ⟨g.shift s.length, Or.inr ⟨g, hg, rfl⟩, ?_, ?_⟩
      · simp only [Block.shift, Head.shift, hl]
      · exact (matchBrace_append_right s t).mpr ⟨c.rbrace, hm, rfl⟩

/-- A byte that no head goes on over keeps all heads on its side. -/
theorem heads_of_stop {s : Bytes} {c : UInt8} (hc : Head.isStop c = true) {i : Nat}
    (hi : i ≤ s.length) (u : Bytes) :
    Head.length? ((s ++ [c]).drop i ++ u) = Head.length? ((s ++ [c]).drop i) := by
  rw [List.drop_append_of_le_length hi, List.append_assoc]
  exact Head.length?_append_stop hc _ u

theorem Parted.of_stop {s : Bytes} {c : UInt8} (hc : Head.isStop c = true)
    (hword : Bytes.holdsOf isWord c = false) (hcode : Mode.run .code (s ++ [c]) = .code) :
    Parted (s ++ [c]) := by
  refine ⟨hcode, ⟨s, c, rfl, (Head.isStop_iff.mp hc).1, hword⟩, fun i hi u => ?_⟩
  have hlen := (List.getElem?_eq_some_iff.mp hi).1
  rw [length_codeMask, List.length_append, List.length_singleton] at hlen
  exact heads_of_stop hc (by omega) u

theorem inCode_append_rightBrace {t : Bytes} (ht : Mode.run .code t = .code) {h : Head} :
    Head.InCode (t ++ [Ascii.rightBrace]) h ↔ Head.InCode t h := by
  have hstop : Head.isStop Ascii.rightBrace = true := by decide
  have hne : Ascii.rightBrace ≠ Ascii.leftBrace := by decide
  have htrail : Utf8.trailing [Ascii.rightBrace] = 0 := by decide
  have hlength : ∀ i ≤ t.length,
      Head.length? ((t ++ [Ascii.rightBrace]).drop i) = Head.length? (t.drop i) := by
    intro i hi
    rw [List.drop_append_of_le_length hi]
    exact Head.length?_append_of_ne hstop hne _ []
  by_cases hlt : h.start < t.length
  · simp only [Head.InCode, Head.mem_all, codeMask_append_left ht _ hlt,
      Parted.wordMayStart_left htrail (Nat.le_of_lt hlt), hlength _ (Nat.le_of_lt hlt)]
  · constructor
    · rintro ⟨hh, hcode⟩
      obtain ⟨n, -, -, hn⟩ := Head.mem_all.mp hh
      have hlen := (List.getElem?_eq_some_iff.mp hcode).1
      rw [length_codeMask, List.length_append, List.length_singleton] at hlen
      have hstart : h.start = t.length := by omega
      rw [hlength _ (Nat.le_of_eq hstart), hstart, List.drop_length] at hn
      simp [Head.length?, Head.keyword, Ascii.word] at hn
    · rintro ⟨-, hcode⟩
      have hlen := (List.getElem?_eq_some_iff.mp hcode).1
      rw [length_codeMask] at hlen
      exact absurd hlen hlt

theorem parted_leftBrace {o : Bytes} (ho : Mode.run .code o = .code) :
    Parted (o ++ [Ascii.leftBrace]) := by
  refine Parted.of_stop (by decide) (by decide) ?_
  rw [Mode.run_append, ho]
  rfl

/-- A message with the bytes `o` before its opening brace, its head standing at `i` and no other
head before the brace, and the body `t`. -/
structure Framed (o t : Bytes) (i : Nat) : Prop where
  before : Mode.run .code o = .code
  head : ∀ h, Head.InCode (o ++ [Ascii.leftBrace]) h ↔ h = ⟨i, o.length⟩
  code : Mode.run .code t = .code
  depth : Depth t 0 0
  matched : Matched t
  front : Utf8.trailing (t ++ [Ascii.rightBrace]) = 0

namespace Framed
variable {o t : Bytes} {i : Nat} (hf : Framed o t i)
include hf

theorem parted : Parted (o ++ [Ascii.leftBrace] ++ t ++ [Ascii.rightBrace]) := by
  refine Parted.of_stop (by decide) (by decide) ?_
  rw [Mode.run_append, Mode.run_append, Mode.run_append, hf.before]
  change (Mode.run .code t).next _ = _
  rw [hf.code]
  rfl

/-- The brace of a message is matched behind a body that opens and closes its own braces. -/
theorem matchBrace_eq :
    matchBrace (o ++ [Ascii.leftBrace] ++ t ++ [Ascii.rightBrace]) o.length =
      .ok (o.length + 1 + t.length) := by
  have hget : (o ++ [Ascii.leftBrace] ++ t ++ [Ascii.rightBrace])[o.length]? =
      some Ascii.leftBrace := by
    simp
  have hdrop : (o ++ [Ascii.leftBrace] ++ t ++ [Ascii.rightBrace]).drop (o.length + 1) =
      t ++ [Ascii.rightBrace] := by
    rw [List.append_assoc, ← List.length_singleton, ← List.length_append, List.drop_left]
  refine matchBrace_eq_ok_iff.mpr ⟨hget, ?_⟩
  rw [eventsAt, hdrop, eventsFrom_append, hf.code]
  exact hf.depth 1 _ _ Nat.one_pos

theorem inCode_iff {h : Head} :
    Head.InCode (o ++ [Ascii.leftBrace] ++ t ++ [Ascii.rightBrace]) h ↔
      h = ⟨i, o.length⟩ ∨ ∃ g, Head.InCode t g ∧ h = g.shift (o.length + 1) := by
  rw [List.append_assoc, (parted_leftBrace hf.before).inCode_append hf.front, hf.head]
  simp only [inCode_append_rightBrace hf.code, List.length_append, List.length_singleton]

theorem matched_framed : Matched (o ++ [Ascii.leftBrace] ++ t ++ [Ascii.rightBrace]) := by
  intro h hh
  rcases hf.inCode_iff.mp hh with rfl | ⟨g, hg, rfl⟩
  · exact ⟨_, hf.matchBrace_eq⟩
  · obtain ⟨stop, hstop⟩ := hf.matched g hg
    refine ⟨o.length + 1 + stop, ?_⟩
    rw [List.append_assoc]
    have hlen : (g.shift (o.length + 1)).lbrace =
        (o ++ [Ascii.leftBrace]).length + g.lbrace := by simp [Head.shift]
    rw [hlen]
    refine (matchBrace_append_right _ _).mpr ⟨stop, matchBrace_append_left hstop _, by simp⟩

theorem messageBlocks_framed :
    messageBlocks (o ++ [Ascii.leftBrace] ++ t ++ [Ascii.rightBrace]) =
      ⟨o.length, o.length + 1 + t.length⟩ ::
        (messageBlocks t).map (Block.shift (o.length + 1)) := by
  have hsorted : (⟨o.length, o.length + 1 + t.length⟩ ::
      (messageBlocks t).map (Block.shift (o.length + 1))).Pairwise (·.lbrace < ·.lbrace) := by
    rw [List.pairwise_cons, List.pairwise_map]
    refine ⟨?_, (pairwise_messageBlocks t).imp ?_⟩
    · intro b hb
      obtain ⟨c, -, rfl⟩ := List.mem_map.mp hb
      simp only [Block.shift]
      omega
    · intro a b hab
      simp only [Block.shift]
      omega
  refine messageBlocks_eq hsorted fun b => ?_
  have hlen : (o ++ [Ascii.leftBrace]).length = o.length + 1 := by simp
  have hinner : ∀ g stop, Head.InCode t g →
      (matchBrace (o ++ [Ascii.leftBrace] ++ t ++ [Ascii.rightBrace]) (o.length + 1 + g.lbrace) =
        .ok stop ↔ ∃ j, matchBrace t g.lbrace = .ok j ∧ stop = o.length + 1 + j) := by
    intro g stop hg
    obtain ⟨j, hj⟩ := hf.matched g hg
    rw [List.append_assoc, ← hlen, matchBrace_append_right, matchBrace_append_left hj, hj]
  rw [List.mem_cons, List.mem_map]
  simp only [mem_messageBlocks_iff, hf.inCode_iff]
  obtain ⟨lbrace, rbrace⟩ := b
  constructor
  · rintro ⟨h, rfl | ⟨g, hg, rfl⟩, hl, hm⟩
    · rw [hf.matchBrace_eq, Except.ok.injEq] at hm
      left
      simp only at hl hm
      rw [hl, hm]
    · obtain ⟨j, hj, hr⟩ := (hinner g _ hg).mp hm
      refine Or.inr ⟨⟨g.lbrace, j⟩, ⟨g, hg, rfl, hj⟩, ?_⟩
      simp only [Head.shift] at hl hr
      simp only [Block.shift, hl, hr]
  · rintro (h | ⟨c, ⟨g, hg, hl, hm⟩, hc⟩)
    · obtain ⟨rfl, rfl⟩ := Block.mk.injEq .. ▸ h
      exact ⟨_, Or.inl rfl, rfl, hf.matchBrace_eq⟩
    · obtain ⟨rfl, rfl⟩ := Block.mk.injEq .. ▸ hc
      refine ⟨g.shift (o.length + 1), Or.inr ⟨g, hg, rfl⟩, ?_, ?_⟩
      · simp only [Head.shift, hl]
      · exact (hinner g _ hg).mpr ⟨c.rbrace, hm, rfl⟩

end Framed

end FieldTags
