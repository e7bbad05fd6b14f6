import FieldTags.Proofs.Lexical.Scan
import FieldTags.Proofs.Shape.Runs

/-! Numbers are inert: modes, events, code mask and matching braces of a text are those of its
shape. -/
namespace FieldTags

theorem UInt8.exists_of_isDigit {b : UInt8} (h : Ascii.isDigit b = true) :
    ∃ n, 0x30 ≤ n ∧ n ≤ 0x39 ∧ b = UInt8.ofNat n := by
  obtain ⟨hl, hu⟩ := Pieces.isDigit_iff.mp h
  exact ⟨b.toNat, hl, hu, by simp⟩

namespace Mode

theorem next_of_isDigit (m : Mode) {b : UInt8} (h : Ascii.isDigit b = true) :
    m.next b = m.next Piece.zero := by
  obtain ⟨n, hl, hu, rfl⟩ := UInt8.exists_of_isDigit h
  have hd : ∀ m : Mode, ∀ n, n ≤ 0x39 → 0x30 ≤ n →
      m.next (UInt8.ofNat n) = m.next Piece.zero := by
    intro m
    cases m with
    | quoted q => cases q <;> decide
    | escaped q => cases q <;> decide
    | _ => decide
  exact hd m n hu hl

theorem event?_of_isDigit (m : Mode) {b : UInt8} (h : Ascii.isDigit b = true) :
    m.event? b = none := by
  obtain ⟨n, hl, hu, rfl⟩ := UInt8.exists_of_isDigit h
  have hd : ∀ m : Mode, ∀ n, n ≤ 0x39 → 0x30 ≤ n → m.event? (UInt8.ofNat n) = none := by
    intro m
    cases m with
    | quoted q => cases q <;> decide
    | escaped q => cases q <;> decide
    | _ => decide
  exact hd m n hu hl

theorem next_zero_next_zero (m : Mode) :
    (m.next Piece.zero).next Piece.zero = m.next Piece.zero := by
  cases m with
  | quoted q => cases q <;> decide
  | escaped q => cases q <;> decide
  | _ => decide

theorem run_digits (m : Mode) {d : Bytes} (hne : d ≠ [])
    (hd : ∀ b ∈ d, Ascii.isDigit b = true) : m.run d = m.next Piece.zero := by
  induction d generalizing m with
  | nil => simp at hne
  | cons b d ih =>
    rw [run_cons, next_of_isDigit m (hd b (by simp))]
    by_cases hnil : d = []
    · simp [hnil]
    · rw [ih _ hnil fun c hc => hd c (by simp [hc]), next_zero_next_zero]

theorem shows_of_isDigit (m : Mode) {b : UInt8} (h : Ascii.isDigit b = true)
    (following : Option UInt8) : m.shows b following = m.isCode := by
  have hs : b ≠ Ascii.slash := Ascii.ne_of_isDigit h (by decide)
  have ha : b ≠ Ascii.asterisk := Ascii.ne_of_isDigit h (by decide)
  have hd : b ≠ Ascii.doubleQuote := Ascii.ne_of_isDigit h (by decide)
  have hq : b ≠ Ascii.singleQuote := Ascii.ne_of_isDigit h (by decide)
  cases m with
  | code => simp [shows, isCode, hs, bne_iff_ne.mpr hd, bne_iff_ne.mpr hq]
  | slash =>
    simp [shows, isCode, bne_iff_ne.mpr hs, bne_iff_ne.mpr ha, bne_iff_ne.mpr hd,
      bne_iff_ne.mpr hq]
  | _ => rfl

end Mode

theorem eventsFrom_digits (m : Mode) (position : Nat) {d : Bytes}
    (hd : ∀ b ∈ d, Ascii.isDigit b = true) : eventsFrom m position d = [] := by
  induction d generalizing m position with
  | nil => rfl
  | cons b d ih =>
    rw [eventsFrom, Mode.event?_of_isDigit m (hd b (by simp)),
      ih _ _ fun c hc => hd c (by simp [hc])]
    rfl

namespace Pieces

theorem run_mode_text (m : Mode) (ps : Pieces) : m.run (text ps) = m.run (shape ps) := by
  induction ps generalizing m with
  | nil => rfl
  | cons q ps ih =>
    cases q with
    | plain b h => simp [Piece.text, Piece.mark, ih]
    | number n =>
      rw [text_cons, Mode.run_append, shape_cons, Mode.run_cons, ih, Piece.text, Piece.mark,
        Mode.run_digits m n.nonempty n.isDigit]

/-- The events of a text are those of its shape, carried to where their bytes stand. -/
theorem eventsFrom_text (m : Mode) (ps : Pieces) :
    eventsFrom m 0 (text ps) = (eventsFrom m 0 (shape ps)).map (Event.move (offset ps)) := by
  induction ps generalizing m with
  | nil => rfl
  | cons q ps ih =>
    have hq :
        eventsFrom m 0 q.text = (eventsFrom m 0 [q.mark]).map (Event.move (offset (q :: ps))) ∧
        m.run q.text = m.next q.mark := by
      cases q with
      | plain b h =>
        constructor
        · simp only [Piece.text, Piece.mark, eventsFrom]
          cases m.event? b <;> rfl
        · rfl
      | number n =>
        have hz : m.event? Piece.zero = none := Mode.event?_of_isDigit m Piece.isDigit_zero
        constructor
        · rw [Piece.text, eventsFrom_digits m 0 n.isDigit]
          simp [Piece.mark, eventsFrom, hz]
        · exact Mode.run_digits m n.nonempty n.isDigit
    have hs : shape (q :: ps) = [q.mark] ++ shape ps := rfl
    rw [text_cons, eventsFrom_append, hq.1, hq.2, hs, eventsFrom_append, List.map_append]
    congr 1
    rw [eventsFrom_eq_move, ih, List.map_map, eventsFrom_eq_move (m.run [q.mark]), List.map_map]
    apply List.map_congr_left
    intro e he
    simp [Event.move, Nat.add_comm 1]

theorem eventsAt_text (ps : Pieces) (k : Nat) :
    eventsAt (text ps) (offset ps k) = (eventsAt (shape ps) k).map (Event.move (offset ps)) := by
  rw [eventsAt, eventsAt, drop_offset, ← shape_drop, eventsFrom_eq_move, eventsFrom_text,
    eventsFrom_eq_move .code k, List.map_map, List.map_map]
  apply List.map_congr_left
  intro e he
  simp [Event.move, offset_add]

theorem getElem?_of_mem_eventsFrom {m : Mode} {t : Bytes} {e : Event}
    (he : e ∈ eventsFrom m 0 t) : ∃ b, t[e.offset]? = some b ∧ Ascii.isDigit b = false := by
  obtain ⟨i, b, hb, ho, hk⟩ := mem_eventsFrom.mp he
  rw [Nat.zero_add] at ho
  refine ⟨b, by rw [ho, hb], ?_⟩
  cases hd : Ascii.isDigit b with
  | false => rfl
  | true =>
    rw [Mode.event?_of_isDigit _ hd] at hk
    simp at hk

theorem statementStarts_text (ps : Pieces) :
    statementStarts (text ps) = (statementStarts (shape ps)).map (offset ps) := by
  have hev : (events (text ps)).map (·.offset + 1) =
      ((events (shape ps)).map (·.offset + 1)).map (offset ps) := by
    have ht : events (text ps) = eventsFrom .code 0 (text ps) := rfl
    have hs : events (shape ps) = eventsFrom .code 0 (shape ps) := rfl
    rw [ht, hs, eventsFrom_text, List.map_map, List.map_map]
    apply List.map_congr_left
    intro e he
    obtain ⟨b, hb, hd⟩ := getElem?_of_mem_eventsFrom he
    simp [Event.move, offset_succ_of_getElem? hd hb]
  rw [statementStarts, statementStarts, hev, List.filter_map, List.map_cons, offset_zero]
  congr 3
  funext i
  simp [length_text]

theorem shows_text (m : Mode) (b : UInt8) (ps : Pieces) :
    m.shows b (text ps).head? = m.shows b (shape ps).head? := by
  cases ps with
  | nil => rfl
  | cons q ps =>
    cases q with
    | plain c h => rfl
    | number n =>
      obtain ⟨c, d, hc⟩ := List.exists_cons_of_ne_nil n.nonempty
      have hd := n.isDigit c (by simp [hc])
      have hnone : ∀ x, Ascii.isDigit x = true → m.shows b (some x) = m.shows b none := by
        intro x hx
        have hs : (some x != some Ascii.slash) = true := by
          simpa using Ascii.ne_of_isDigit hx (by decide)
        have ha : (some x != some Ascii.asterisk) = true := by
          simpa using Ascii.ne_of_isDigit hx (by decide)
        cases m with
        | code => simp only [Mode.shows, hs, ha]; rfl
        | _ => rfl
      simp only [text_cons, shape_cons, Piece.text, Piece.mark, hc, List.cons_append,
        List.head?_cons]
      rw [hnone c hd, hnone _ Piece.isDigit_zero]

theorem codeMaskFrom_text (m : Mode) (ps : Pieces) (k : Nat) :
    (codeMaskFrom m (text ps))[offset ps k]? = (codeMaskFrom m (shape ps))[k]? := by
  induction ps generalizing m k with
  | nil => simp [codeMaskFrom]
  | cons q ps ih =>
    cases k with
    | zero =>
      cases q with
      | plain b h => simp [Piece.text, Piece.mark, codeMaskFrom, shows_text]
      | number n =>
        obtain ⟨c, d, hc⟩ := List.exists_cons_of_ne_nil n.nonempty
        have hd := n.isDigit c (by simp [hc])
        simp [Piece.text, Piece.mark, hc, codeMaskFrom, Mode.shows_of_isDigit m hd,
          Mode.shows_of_isDigit m Piece.isDigit_zero]
    | succ k =>
      have hq : m.run q.text = m.next q.mark := by
        have := run_mode_text m [q]
        simpa using this
      rw [offset_cons_succ, text_cons, codeMaskFrom_append, hq, ih]
      rfl

theorem codeMask_text (ps : Pieces) (k : Nat) :
    (codeMask (text ps))[offset ps k]? = (codeMask (shape ps))[k]? :=
  codeMaskFrom_text .code ps k

theorem matchBrace_text {ps : Pieces} {k stop : Nat} :
    matchBrace (text ps) (offset ps k) = .ok stop ↔
      ∃ j, matchBrace (shape ps) k = .ok j ∧ stop = offset ps j := by
  have hb : Ascii.isDigit Ascii.leftBrace = false := by decide
  simp only [matchBrace_eq_ok, getElem?_offset hb, eventsAt_text, closing?_map_move,
    Option.map_eq_some_iff]
  grind

end Pieces
end FieldTags
