import FieldTags.Block.Brace
import FieldTags.Lexical.Mask

/-! Scanning a text from any of its places. The mode before a byte is that of a run over all bytes
before it; events and mask go on from there. -/
namespace FieldTags

def Event.move (φ : Nat → Nat) (e : Event) : Event := ⟨e.kind, φ e.offset⟩

theorem eventsFrom_add (m : Mode) (k position : Nat) (t : Bytes) :
    eventsFrom m (k + position) t = (eventsFrom m position t).map (Event.move (k + ·)) := by
  induction t generalizing m position with
  | nil => rfl
  | cons b t ih =>
    rw [eventsFrom, eventsFrom, List.map_append, Nat.add_assoc, ih]
    congr 1
    cases m.event? b <;> rfl

theorem eventsFrom_eq_move (m : Mode) (position : Nat) (t : Bytes) :
    eventsFrom m position t = (eventsFrom m 0 t).map (Event.move (position + ·)) := by
  simpa using eventsFrom_add m position 0 t

theorem map_succ_offset_move (k : Nat) (es : List Event) :
    (es.map (Event.move (k + ·))).map (·.offset + 1) = (es.map (·.offset + 1)).map (k + ·) := by
  rw [List.map_map, List.map_map]
  rfl

theorem mem_eventsFrom {m : Mode} {position : Nat} {t : Bytes} {e : Event} :
    e ∈ eventsFrom m position t ↔ ∃ i b, t[i]? = some b ∧ e.offset = position + i ∧
      (m.run (t.take i)).event? b = some e.kind := by
  induction t generalizing m position with
  | nil => simp [eventsFrom]
  | cons b t ih =>
    rw [eventsFrom, List.mem_append, ih]
    constructor
    · rintro (h | ⟨i, c, hc, ho, hk⟩)
      · obtain ⟨k, hk, rfl⟩ : ∃ k, m.event? b = some k ∧ e = ⟨k, position⟩ := by
          cases hm : m.event? b with
          | none => simp [hm] at h
          | some k => exact ⟨k, rfl, by simpa [hm] using h⟩
        exact ⟨0, b, by simp, by simp, by simpa using hk⟩
      · exact ⟨i + 1, c, by simpa using hc, by omega, by simpa using hk⟩
    · rintro ⟨i, c, hc, ho, hk⟩
      cases i with
      | zero =>
        have hbc : b = c := by simpa using hc
        rw [List.take_zero, Mode.run_nil, ← hbc] at hk
        obtain ⟨kind, offset⟩ := e
        have ho : offset = position := by simpa using ho
        left
        rw [hk, ho]
        simp
      | succ i => exact Or.inr ⟨i, c, by simpa using hc, by omega, by simpa using hk⟩

theorem bounds_of_mem_eventsFrom {m : Mode} {position : Nat} {t : Bytes} {e : Event}
    (h : e ∈ eventsFrom m position t) : position ≤ e.offset ∧ e.offset < position + t.length := by
  obtain ⟨i, b, hb, hoffset, -⟩ := mem_eventsFrom.mp h
  have hi := (List.getElem?_eq_some_iff.mp hb).1
  omega

theorem pairwise_eventsFrom (m : Mode) (position : Nat) (t : Bytes) :
    (eventsFrom m position t).Pairwise (·.offset < ·.offset) := by
  induction t generalizing m position with
  | nil => exact List.Pairwise.nil
  | cons b t ih =>
    rw [eventsFrom, List.pairwise_append]
    refine ⟨?_, ih _ _, ?_⟩
    · cases m.event? b <;> simp
    · intro e he f hf
      obtain ⟨i, c, -, hi, -⟩ := mem_eventsFrom.mp hf
      cases hk : m.event? b with
      | none => simp [hk] at he
      | some k =>
        have : e = ⟨k, position⟩ := by simpa [hk] using he
        rw [this, hi]
        simp only
        omega

theorem Mode.run_drop {t : Bytes} {i k : Nat} (hcode : Mode.run .code (t.take i) = .code)
    (hk : i ≤ k) : Mode.run .code ((t.drop i).take (k - i)) = Mode.run .code (t.take k) := by
  obtain ⟨j, rfl⟩ := Nat.exists_eq_add_of_le hk
  rw [Nat.add_sub_cancel_left, List.take_add, Mode.run_append, hcode]

theorem eventsAt_split {t : Bytes} {i k : Nat} (hi : Mode.run .code (t.take i) = .code)
    (hk : Mode.run .code (t.take k) = .code) (hik : i ≤ k) (hlen : k ≤ t.length) :
    eventsAt t i = eventsFrom .code i ((t.drop i).take (k - i)) ++ eventsAt t k := by
  have hstretch : ((t.drop i).take (k - i)).length = k - i := by
    rw [List.length_take, List.length_drop, Nat.min_eq_left (by omega)]
  have happend := eventsFrom_append .code i ((t.drop i).take (k - i)) ((t.drop i).drop (k - i))
  rw [List.take_append_drop, Mode.run_drop hi hik, hk, hstretch, List.drop_drop,
    Nat.add_sub_cancel' hik] at happend
  exact happend

theorem eventsAt_append {s : Bytes} {i : Nat} (hi : i ≤ s.length) (t : Bytes) :
    eventsAt (s ++ t) i = eventsAt s i ++ eventsFrom (Mode.run .code (s.drop i)) s.length t := by
  rw [eventsAt, List.drop_append_of_le_length hi, eventsFrom_append, List.length_drop,
    Nat.add_sub_cancel' hi]
  rfl

theorem eventsAt_append_right (s t : Bytes) (i : Nat) :
    eventsAt (s ++ t) (s.length + i) = (eventsAt t i).map (Event.move (s.length + ·)) := by
  rw [eventsAt, eventsAt, ← List.drop_drop, List.drop_left, eventsFrom_add]

namespace Mode
variable {m : Mode} {b : UInt8}

theorem next_eq_slash_iff : m.next b = .slash ↔ m = .code ∧ b = Ascii.slash := by
  cases m <;> grind [next, nextInCode]

/-- The byte behind another one decides about it only if the other is a slash of code. -/
theorem shows_eq_of_next {f g : Option UInt8}
    (hf : m.next b = .slash → f ≠ some Ascii.slash ∧ f ≠ some Ascii.asterisk)
    (hg : m.next b = .slash → g ≠ some Ascii.slash ∧ g ≠ some Ascii.asterisk) :
    m.shows b f = m.shows b g := by
  cases m with
  | code =>
    by_cases hb : b = Ascii.slash
    · obtain ⟨hfs, hfa⟩ := hf (next_eq_slash_iff.mpr ⟨rfl, hb⟩)
      obtain ⟨hgs, hga⟩ := hg (next_eq_slash_iff.mpr ⟨rfl, hb⟩)
      simp [shows, hb, bne_iff_ne.mpr hfs, bne_iff_ne.mpr hfa, bne_iff_ne.mpr hgs, bne_iff_ne.mpr hga]
    · simp [shows, hb]
  | _ => rfl

end Mode

/-- A mask goes on behind a text unless the text ends with a slash that a comment then begins with. -/
theorem codeMaskFrom_append_of_seam {m : Mode} {s t : Bytes}
    (h : m.run s = .slash → t.head? ≠ some Ascii.slash ∧ t.head? ≠ some Ascii.asterisk) :
    codeMaskFrom m (s ++ t) = codeMaskFrom m s ++ codeMaskFrom (m.run s) t := by
  induction s generalizing m with
  | nil => rfl
  | cons b s ih =>
    have hshows : m.shows b (s ++ t).head? = m.shows b s.head? := by
      cases s with
      | nil => exact Mode.shows_eq_of_next h fun _ => by simp
      | cons c s => rfl
    rw [List.cons_append, codeMaskFrom, codeMaskFrom, hshows, ih h]
    rfl

theorem codeMaskFrom_append (m : Mode) (s t : Bytes) (i : Nat) :
    (codeMaskFrom m (s ++ t))[s.length + i]? = (codeMaskFrom (m.run s) t)[i]? := by
  induction s generalizing m with
  | nil => simp
  | cons b s ih =>
    rw [List.cons_append, codeMaskFrom, List.length_cons, Nat.succ_add, List.getElem?_cons_succ, ih,
      Mode.run_cons]

theorem getLast?_codeMask_concat (s : Bytes) (b : UInt8) :
    (codeMask (s ++ [b])).getLast? = some ((Mode.run .code s).shows b none) := by
  have hmask := codeMaskFrom_append .code s [b] 0
  have hlen : (codeMask (s ++ [b])).length - 1 = s.length + 0 := by simp
  rw [List.getLast?_eq_getElem?, hlen, codeMask, hmask]
  rfl

theorem getElem?_codeMaskFrom (m : Mode) (t : Bytes) (i : Nat) :
    (codeMaskFrom m t)[i]? = t[i]?.map fun b => (m.run (t.take i)).shows b t[i + 1]? := by
  by_cases hi : i < t.length
  · have h := codeMaskFrom_append m (t.take i) (t.drop i) 0
    rw [List.take_append_drop, List.length_take, Nat.min_eq_left (Nat.le_of_lt hi)] at h
    obtain ⟨b, rest, hb⟩ := List.exists_cons_of_ne_nil (l := t.drop i) (by simp; omega)
    have h0 : t[i]? = some b := by
      rw [← Nat.add_zero i, ← List.getElem?_drop, hb]
      rfl
    have h1 : t[i + 1]? = rest.head? := by
      rw [← List.getElem?_drop, hb]
      cases rest <;> rfl
    rw [Nat.add_zero, hb] at h
    simp [h, h0, h1, codeMaskFrom]
  · have ht : t[i]? = none := List.getElem?_eq_none (by omega)
    have hm : (codeMaskFrom m t)[i]? = none := List.getElem?_eq_none (by simp; omega)
    rw [ht, hm]
    rfl

namespace Mode

theorem next_of_plain {m : Mode} {b : UInt8} (hm : m.isCode = true) (hs : b ≠ Ascii.slash)
    (hd : b ≠ Ascii.doubleQuote) (hq : b ≠ Ascii.singleQuote) (ha : b ≠ Ascii.asterisk) :
    m.next b = .code := by
  cases m <;> simp_all [isCode, next, nextInCode]

theorem run_of_plain {t : Bytes}
    (h : ∀ b ∈ t, b ≠ Ascii.slash ∧ b ≠ Ascii.doubleQuote ∧ b ≠ Ascii.singleQuote) :
    run .code t = .code := by
  induction t with
  | nil => rfl
  | cons b t ih =>
    obtain ⟨hs, hd, hq⟩ := h b (by simp)
    have hn : next .code b = .code := by simp [next, nextInCode, hs, hd, hq]
    rw [run_cons, hn, ih fun c hc => h c (by simp [hc])]

theorem isCode_of_shows {m : Mode} {b : UInt8} {following : Option UInt8}
    (h : m.shows b following = true) : m.isCode = true := by
  cases m <;> simp_all [isCode, shows]

theorem shows_of_not_isCode {m : Mode} (h : m.isCode = false) (b : UInt8)
    (following : Option UInt8) : m.shows b following = false := by
  refine Bool.eq_false_iff.mpr fun hshows => ?_
  rw [isCode_of_shows hshows] at h
  simp at h

theorem isCode_of_codeMask {t : Bytes} {i : Nat} (h : (codeMask t)[i]? = some true) :
    (run .code (t.take i)).isCode = true := by
  have hmask : (codeMaskFrom .code t)[i]? = some true := h
  rw [getElem?_codeMaskFrom] at hmask
  obtain ⟨b, -, hshows⟩ := Option.map_eq_some_iff.mp hmask
  exact isCode_of_shows hshows

end Mode

theorem closing?_map_move (φ : Nat → Nat) (depth : Nat) (es : List Event) :
    closing? depth (es.map (Event.move φ)) = (closing? depth es).map φ := by
  induction es generalizing depth with
  | nil => rfl
  | cons e es ih =>
    cases h : e.kind with
    | closeBrace => by_cases hd : depth ≤ 1 <;> simp [closing?, Event.move, h, hd, ih]
    | _ => simp [closing?, Event.move, h, ih]

theorem matchBrace_eq_ok {t : Bytes} {start stop : Nat} :
    matchBrace t start = .ok stop ↔
      t[start]? = some Ascii.leftBrace ∧ closing? 0 (eventsAt t start) = some stop := by
  by_cases h : t[start]? = some Ascii.leftBrace
  · rw [matchBrace_of_leftBrace h]
    cases hc : closing? 0 (eventsAt t start) <;> simp [h]
  · simp [matchBrace, h]

end FieldTags
