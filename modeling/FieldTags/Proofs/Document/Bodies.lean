import FieldTags.Proofs.Document.Claims
import FieldTags.Proofs.Message.Forest
import FieldTags.Proofs.Message.Parts

/-! The body of a message, read alone. It is scanned as in the whole text, and the messages inside are
found at the same places. -/
namespace FieldTags

theorem codeMaskFrom_append_of_ne {c : UInt8} (hs : c ≠ Ascii.slash) (ha : c ≠ Ascii.asterisk)
    (m : Mode) (s u : Bytes) :
    codeMaskFrom m (s ++ c :: u) = codeMaskFrom m s ++ codeMaskFrom (m.run s) (c :: u) :=
  codeMaskFrom_append_of_seam fun _ => by simp [hs, ha]

theorem wordMayStart_append_ascii {c : UInt8} (hc : c < 0x80)
    (hword : Bytes.holdsOf isWord c = false) (s u : Bytes) :
    Bytes.wordMayStart (s ++ c :: u) = s.wordMayStart ++ u.wordMayStart := by
  have hmarks : Bytes.marks isWord (c :: u) = false :: Bytes.marks isWord u := by
    rw [Bytes.marks, Bytes.marksAfter_zero_ascii hc, hword, Bytes.marksAfter_zero]
  rw [Bytes.wordMayStart, Bytes.marks_append (Utf8.trailing_cons_of_ascii hc u), hmarks,
    List.map_append]
  rfl

theorem matchBrace_of_append {s u : Bytes} {i stop : Nat} (h : matchBrace (s ++ u) i = .ok stop)
    (hi : i < s.length) (hstop : stop < s.length) : matchBrace s i = .ok stop := by
  obtain ⟨hbrace, hclosing⟩ := matchBrace_eq_ok_iff.mp h
  rw [List.getElem?_append_left hi] at hbrace
  rw [eventsAt_append hi] at hclosing
  refine matchBrace_eq_ok_iff.mpr ⟨hbrace, ?_⟩
  rcases closing?_append Nat.one_pos hclosing with hin | ⟨d, -, hout⟩
  · exact hin
  · exact absurd (bounds_of_mem_eventsFrom (mem_of_closing? hout)).1 (Nat.not_le_of_gt hstop)

theorem codeMaskFrom_rightBrace {m : Mode} (h : m.isCode = true) (u : Bytes) :
    codeMaskFrom m (Ascii.rightBrace :: u) = true :: codeMask u := by
  cases m <;> first | rfl | exact absurd h Bool.false_ne_true

theorem eventsFrom_rightBrace {m : Mode} (h : m.isCode = true) (position : Nat) (u : Bytes) :
    eventsFrom m position (Ascii.rightBrace :: u) =
      ⟨.closeBrace, position⟩ :: eventsFrom .code (position + 1) u := by
  cases m <;> first | rfl | exact absurd h Bool.false_ne_true

namespace Block
variable {b : Block} {t : Bytes}

theorem containsOffset_iff {k : Nat} : b.containsOffset k = true ↔ b.lbrace < k ∧ k < b.rbrace := by
  simp [containsOffset]

theorem filter_starts_outside {m : Mode} {position : Nat}
    (h : position + t.length ≤ b.lbrace ∨ b.rbrace ≤ position) :
    ((eventsFrom m position t).map (·.offset + 1)).filter b.containsOffset = [] := by
  rw [List.filter_eq_nil_iff, List.forall_mem_map]
  intro e he
  have hbounds := bounds_of_mem_eventsFrom he
  rw [containsOffset_iff]
  omega

theorem filter_starts_inside (h : b.bodyStart + t.length = b.rbrace) :
    ((eventsFrom .code b.bodyStart t).map (·.offset + 1)).filter b.containsOffset =
      (((events t).map (·.offset + 1)).filter (· < t.length)).map (b.bodyStart + ·) := by
  rw [eventsFrom_eq_move, map_succ_offset_move, List.filter_map]
  congr 1
  refine List.filter_congr fun k _ => ?_
  rw [bodyStart] at h
  rw [Bool.eq_iff_iff, Function.comp_apply, containsOffset_iff, decide_eq_true_eq, bodyStart]
  omega

end Block

/-- The text has the message `s` with the body `body` between `front` and `back`. -/
structure Enclosed (t front body back : Bytes) (s : Block) : Prop where
  text : t = front ++ Ascii.leftBrace :: (body ++ Ascii.rightBrace :: back)
  lbrace : s.lbrace = front.length
  rbrace : s.rbrace = front.length + 1 + body.length
  before : Mode.run .code front = .code
  inside : (Mode.run .code body).isCode = true

theorem eq_append_between {t : Bytes} {i j : Nat} {b c : UInt8} (hi : t[i]? = some b)
    (hj : t[j]? = some c) (hlt : i < j) :
    t = t.take i ++ b :: (t.between (i + 1) j ++ c :: t.drop (j + 1)) := by
  obtain ⟨hilen, higet⟩ := List.getElem?_eq_some_iff.mp hi
  obtain ⟨hjlen, hjget⟩ := List.getElem?_eq_some_iff.mp hj
  have hrest : t.between (i + 1) j ++ t.drop j = t.drop (i + 1) := by
    have hcut := List.take_append_drop (j - (i + 1)) (t.drop (i + 1))
    rw [List.drop_drop, Nat.add_sub_cancel' hlt, ← List.drop_take] at hcut
    exact hcut
  rw [← hjget, ← List.drop_eq_getElem_cons hjlen, hrest, ← higet, ← List.drop_eq_getElem_cons hilen,
    List.take_append_drop]

theorem exists_enclosed {t : Bytes} {s : Block} (hs : s ∈ messageBlocks t) :
    ∃ front back, Enclosed t front (bodyOf t s) back s := by
  obtain ⟨⟨hleft, -⟩, hright, hmask⟩ := codeMask_braces hs
  have hlt := (getElem?_rbrace hs).2
  have htext := eq_append_between hleft hright hlt
  have hfront : (t.take s.lbrace).length = s.lbrace := by
    rw [List.length_take, Nat.min_eq_left (Nat.le_of_lt (List.getElem?_eq_some_iff.mp hleft).1)]
  have hbody := length_bodyOf hs
  have hbefore := run_code_lbrace hs
  rw [Block.bodyStart] at hbody
  refine ⟨_, _, htext, hfront.symm, by rw [hfront, hbody]; omega, hbefore, ?_⟩
  have htake : t.take s.rbrace = t.take s.lbrace ++ Ascii.leftBrace :: bodyOf t s := by
    have hfirst : t.take s.lbrace ++ Ascii.leftBrace :: bodyOf t s <+: t :=
      ⟨Ascii.rightBrace :: t.drop (s.rbrace + 1), by simpa [bodyOf, Block.bodyStart] using htext.symm⟩
    have hlen : (t.take s.lbrace ++ Ascii.leftBrace :: bodyOf t s).length = s.rbrace := by
      rw [List.length_append, List.length_cons, hfront, hbody]
      omega
    rw [← hlen]
    exact (List.prefix_iff_eq_take.mp hfirst).symm
  have hcode := Mode.isCode_of_codeMask hmask
  rw [htake, Mode.run_append, hbefore] at hcode
  exact hcode

namespace Enclosed
variable {t front body back : Bytes} {s : Block} (h : Enclosed t front body back s)
include h

theorem codeMask_eq : codeMask t =
    codeMask front ++ true :: (codeMask body ++ true :: codeMask back) := by
  have hopen : ∀ u, codeMaskFrom .code (Ascii.leftBrace :: u) = true :: codeMask u := fun _ => rfl
  rw [h.text, codeMask, codeMaskFrom_append_of_ne (by decide) (by decide), h.before, hopen,
    codeMask, codeMaskFrom_append_of_ne (by decide) (by decide), codeMaskFrom_rightBrace h.inside]
  rfl

theorem events_eq : events t = eventsFrom .code 0 front ++ ⟨.openBrace, s.lbrace⟩ ::
    (eventsFrom .code s.bodyStart body ++ ⟨.closeBrace, s.rbrace⟩ ::
      eventsFrom .code (s.rbrace + 1) back) := by
  have hopen : ∀ position u, eventsFrom .code position (Ascii.leftBrace :: u) =
      ⟨.openBrace, position⟩ :: eventsFrom .code (position + 1) u := fun _ _ => rfl
  have hevents : events t = eventsFrom .code 0 t := rfl
  rw [hevents, h.text, eventsFrom_append, h.before, hopen, eventsFrom_append,
    eventsFrom_rightBrace h.inside, Nat.zero_add, ← h.lbrace, h.rbrace, ← h.lbrace, Block.bodyStart]

theorem wordMayStart_eq :
    t.wordMayStart = front.wordMayStart ++ (body.wordMayStart ++ back.wordMayStart) := by
  rw [h.text, wordMayStart_append_ascii (by decide) (by decide),
    wordMayStart_append_ascii (by decide) (by decide)]

theorem codeMask_body : codeMask body = ((codeMask t).take s.rbrace).drop s.bodyStart := by
  have hfront : (codeMask front ++ [true]).length = s.bodyStart := by
    rw [List.length_append, length_codeMask, ← h.lbrace]
    rfl
  have hbody : (codeMask front ++ [true] ++ codeMask body).length = s.rbrace := by
    rw [List.length_append, hfront, length_codeMask, h.rbrace, Block.bodyStart, h.lbrace]
  have hmask : codeMask t =
      codeMask front ++ [true] ++ codeMask body ++ true :: codeMask back := by
    rw [h.codeMask_eq]
    simp
  rw [hmask, List.take_left' hbody, List.drop_left' hfront]

theorem length_add_bodyStart : body.length + s.bodyStart = s.rbrace := by
  rw [h.rbrace, ← h.lbrace, Block.bodyStart, Nat.add_comm]

theorem statementStarts_body (hne : body ≠ []) :
    (statementStarts body).map (s.bodyStart + ·) = (statementStarts t).filter s.containsOffset := by
  have hpos := List.length_pos_of_ne_nil hne
  have hrbrace := h.length_add_bodyStart
  have hlbrace := h.lbrace
  have hlen : s.rbrace < t.length := by
    rw [h.text, h.rbrace]
    simp
    omega
  -- of the events of the whole text only those of the body and its opening brace count
  have hevents : (statementStarts t).filter s.containsOffset =
      ((events t).map (·.offset + 1)).filter s.containsOffset := by
    rw [statementStarts, List.filter_cons_of_neg (by simp [Block.containsOffset]),
      List.filter_filter]
    refine List.filter_congr fun k _ => ?_
    rw [Bool.eq_iff_iff, Bool.and_eq_true, Block.containsOffset_iff, decide_eq_true_eq]
    omega
  have hopening : s.containsOffset (s.lbrace + 1) = true := by
    rw [Block.containsOffset_iff, ← hrbrace, Block.bodyStart]
    omega
  have hclosing : ¬ s.containsOffset (s.rbrace + 1) = true := by
    rw [Block.containsOffset_iff]
    omega
  rw [hevents, h.events_eq, List.map_append, List.filter_append,
    Block.filter_starts_outside (Or.inl (by omega)), List.nil_append, List.map_cons,
    List.filter_cons_of_pos hopening, List.map_append, List.filter_append,
    Block.filter_starts_inside (by omega), List.map_cons, List.filter_cons_of_neg hclosing,
    Block.filter_starts_outside (Or.inr (Nat.le_succ _)), List.append_nil, statementStarts,
    List.map_cons]
  rfl

theorem length_head : (front ++ [Ascii.leftBrace]).length = s.bodyStart := by
  rw [List.length_append, ← h.lbrace]
  rfl

theorem text_eq :
    t = front ++ [Ascii.leftBrace] ++ (body ++ Ascii.rightBrace :: back) := by
  rw [h.text, List.append_assoc]
  rfl

theorem inCode_shift_iff {g : Head} (hg : g.start < body.length) :
    Head.InCode t (g.shift s.bodyStart) ↔ Head.InCode body g := by
  have hbrace : Head.isStop Ascii.rightBrace = true := by decide
  have hne : Ascii.rightBrace ≠ Ascii.leftBrace := by decide
  have hrbrace := h.length_add_bodyStart
  have hmask : (codeMask t)[s.bodyStart + g.start]? = (codeMask body)[g.start]? := by
    rw [h.codeMask_body, List.getElem?_drop, List.getElem?_take, if_pos (by omega)]
  have hmay : t.wordMayStart[s.bodyStart + g.start]? = body.wordMayStart[g.start]? := by
    have hlength : ∀ u : Bytes, u.wordMayStart.length = u.length + 1 := by
      intro u
      simp [Bytes.wordMayStart, Bytes.length_marks]
    have hfront : front.wordMayStart.length = s.bodyStart := by
      rw [hlength, ← h.lbrace, Block.bodyStart]
    rw [h.wordMayStart_eq, ← hfront, List.getElem?_append_right (Nat.le_add_right _ _),
      Nat.add_sub_cancel_left, List.getElem?_append_left (by rw [hlength]; omega)]
  have hlength : Head.length? (t.drop (s.bodyStart + g.start)) =
      Head.length? (body.drop g.start) := by
    rw [h.text_eq, ← List.drop_drop, ← h.length_head, List.drop_left,
      List.drop_append_of_le_length (Nat.le_of_lt hg), Head.length?_append_of_ne hbrace hne]
  simp only [Head.InCode, Head.mem_all, Head.shift, hmask, hmay, hlength]
  refine and_congr_left fun _ => exists_congr fun n => and_congr_left fun hn => ?_
  obtain ⟨u, -, -, rfl, -⟩ := Head.length?_eq_some hn.2
  omega

theorem matchBrace_shift_iff {i stop : Nat} (hi : i < body.length) (hstop : stop < body.length) :
    matchBrace t (s.bodyStart + i) = .ok (s.bodyStart + stop) ↔ matchBrace body i = .ok stop := by
  rw [h.text_eq, ← h.length_head, matchBrace_append_right]
  constructor
  · rintro ⟨j, hj, heq⟩
    obtain rfl : stop = j := Nat.add_left_cancel heq
    exact matchBrace_of_append hj hi hstop
  · exact fun hmatch => ⟨stop, matchBrace_append_left hmatch _, rfl⟩

/-- The messages in the body are those of the whole text that the message contains. -/
theorem mem_contained_iff (hs : s ∈ messageBlocks t) {b : Block} :
    b ∈ messageBlocks t ∧ s.contains b = true ↔
      ∃ c ∈ messageBlocks body, c.shift s.bodyStart = b := by
  have hrbrace := h.length_add_bodyStart
  simp only [Block.contains, Bool.and_eq_true, decide_eq_true_eq]
  constructor
  · rintro ⟨hb, hleft, hright⟩
    have hlt := (getElem?_rbrace hb).2
    obtain ⟨f, hf, hfl, -⟩ := mem_messageBlocks_iff.mp hs
    obtain ⟨g, hg, hl, hm⟩ := mem_messageBlocks_iff.mp hb
    obtain ⟨u, r, -, hgl, -⟩ := Head.exists_of_mem_all hg.1
    have hstart := Head.lbrace_lt_start_of_lbrace_lt hf.1 hg.1 (by omega)
    rw [← hfl] at hstart
    obtain ⟨i, hi⟩ := Nat.exists_eq_add_of_le (show s.bodyStart ≤ g.start from hstart)
    obtain ⟨j, hj⟩ := Nat.exists_eq_add_of_le (show s.bodyStart ≤ b.lbrace from hleft)
    obtain ⟨k, hk⟩ := Nat.exists_eq_add_of_le (show s.bodyStart ≤ b.rbrace by omega)
    obtain ⟨lbrace, rbrace⟩ := b
    obtain ⟨start, brace⟩ := g
    simp only at hi hj hk hl hlt hright hgl hm
    subst hi hj hk hl
    refine ⟨⟨j, k⟩, mem_messageBlocks_iff.mpr ⟨⟨i, j⟩,
      (h.inCode_shift_iff ?_).mp hg, rfl, (h.matchBrace_shift_iff ?_ ?_).mp hm⟩, rfl⟩ <;>
      simp only <;> omega
  · rintro ⟨c, hc, rfl⟩
    obtain ⟨hright, hlt⟩ := getElem?_rbrace hc
    have hlen := (List.getElem?_eq_some_iff.mp hright).1
    obtain ⟨g, hg, hl, hm⟩ := mem_messageBlocks_iff.mp hc
    obtain ⟨u, r, -, hstart, -⟩ := Head.exists_of_mem_all hg.1
    rw [← hl] at hm
    simp only [Block.shift]
    refine ⟨mem_messageBlocks_iff.mpr ⟨g.shift s.bodyStart,
      (h.inCode_shift_iff (by omega)).mpr hg, ?_, ?_⟩, ?_, ?_⟩
    · simp only [Head.shift, hl]
    · simp only [Head.shift, ← hl]
      exact (h.matchBrace_shift_iff (by omega) hlen).mpr hm
    · rw [Block.bodyStart]
      omega
    · omega

end Enclosed

/-- The body of a message read alone shows what the whole text shows there: the messages inside, the
code, and, unless it is empty, the statement starts between the braces of the message. -/
theorem bodyOf_scanned {t : Bytes} {s : Block} (hs : s ∈ messageBlocks t) :
    (messageBlocks (bodyOf t s)).map (Block.shift s.bodyStart) =
        (messageBlocks t).filter s.contains ∧
      codeMask (bodyOf t s) = ((codeMask t).take s.rbrace).drop s.bodyStart ∧
      (bodyOf t s ≠ [] → (statementStarts (bodyOf t s)).map (s.bodyStart + ·) =
        (statementStarts t).filter s.containsOffset) := by
  obtain ⟨front, back, h⟩ := exists_enclosed hs
  refine ⟨?_, h.codeMask_body, h.statementStarts_body⟩
  refine eq_of_mem_iff_blocks ?_ ((pairwise_messageBlocks t).filter _) fun b => ?_
  · rw [List.pairwise_map]
    refine (pairwise_messageBlocks _).imp fun hlt => ?_
    simp only [Block.shift]
    omega
  · rw [List.mem_map, List.mem_filter]
    exact (h.mem_contained_iff hs).symm

theorem bodyOf_scanned_nested :
    let t := Ascii.word "message A { message B { b x = 7; } b y = 30; }"
    (messageBlocks (bodyOf t ⟨10, 45⟩)).map (Block.shift 11) = [⟨22, 33⟩] ∧
      (statementStarts (bodyOf t ⟨10, 45⟩)).map (11 + ·) = [11, 23, 32, 34, 44] := by
  intro t
  obtain ⟨hblocks, -, hstarts⟩ := bodyOf_scanned (t := t) (s := ⟨10, 45⟩) (by decide +kernel)
  exact ⟨hblocks.trans (by decide +kernel),
    (hstarts (by decide +kernel)).trans (by decide +kernel)⟩

end FieldTags
