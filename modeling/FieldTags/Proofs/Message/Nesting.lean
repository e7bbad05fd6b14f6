import FieldTags.Proofs.Message.Order

/-! Two message blocks are nested or apart: a block that opens inside another closes there. -/
namespace FieldTags

theorem mem_of_closing? {depth : Nat} {es : List Event} {stop : Nat}
    (h : closing? depth es = some stop) : ⟨.closeBrace, stop⟩ ∈ es := by
  induction es generalizing depth with
  | nil => simp [closing?] at h
  | cons e es ih =>
    obtain ⟨kind, offset⟩ := e
    cases kind with
    | openBrace => exact List.mem_cons_of_mem _ (ih h)
    | closeBrace =>
      by_cases hd : depth ≤ 1
      · have : offset = stop := by simpa [closing?, hd] using h
        simp [this]
      · have h : closing? (depth - 1) es = some stop := by simpa [closing?, hd] using h
        exact List.mem_cons_of_mem _ (ih h)
    | semicolon => exact List.mem_cons_of_mem _ (ih h)
    | lineBreak => exact List.mem_cons_of_mem _ (ih h)
    | commentEnd => exact List.mem_cons_of_mem _ (ih h)

theorem closing?_append {depth : Nat} {es fs : List Event} {stop : Nat} (hd : 0 < depth)
    (h : closing? depth (es ++ fs) = some stop) :
    closing? depth es = some stop ∨ ∃ d, 0 < d ∧ closing? d fs = some stop := by
  induction es generalizing depth with
  | nil => exact Or.inr ⟨depth, hd, h⟩
  | cons e es ih =>
    obtain ⟨kind, offset⟩ := e
    cases kind with
    | openBrace => exact ih (Nat.succ_pos depth) h
    | closeBrace =>
      by_cases hd1 : depth ≤ 1
      · left
        simpa [closing?, hd1] using h
      · have h : closing? (depth - 1) (es ++ fs) = some stop := by simpa [closing?, hd1] using h
        have hclose : closing? depth (⟨.closeBrace, offset⟩ :: es) = closing? (depth - 1) es := by
          simp [closing?, hd1]
        rw [hclose]
        exact ih (by omega) h
    | semicolon => exact ih hd h
    | lineBreak => exact ih hd h
    | commentEnd => exact ih hd h

/-- With fewer open blocks the count ends too, and earlier. -/
theorem exists_closing?_lt {d k : Nat} {es : List Event} {outer : Nat} (hd : 0 < d) (hk : 0 < k)
    (hs : es.Pairwise (·.offset < ·.offset)) (ho : closing? (k + d) es = some outer) :
    ∃ inner, closing? k es = some inner ∧ inner < outer := by
  induction es generalizing k with
  | nil => simp [closing?] at ho
  | cons e es ih =>
    obtain ⟨kind, offset⟩ := e
    obtain ⟨hlt, htail⟩ := List.pairwise_cons.mp hs
    cases kind with
    | openBrace =>
      have ho : closing? (k + 1 + d) es = some outer := by
        rw [Nat.add_right_comm]
        exact ho
      exact ih (Nat.succ_pos k) htail ho
    | closeBrace =>
      have ho : closing? (k + d - 1) es = some outer := by
        simpa [closing?, show ¬ k + d ≤ 1 by omega] using ho
      by_cases hk1 : k ≤ 1
      · exact ⟨offset, by simp [closing?, hk1], hlt _ (mem_of_closing? ho)⟩
      · rw [show k + d - 1 = k - 1 + d by omega] at ho
        obtain ⟨inner, hi, hinner⟩ := ih (by omega) htail ho
        exact ⟨inner, by simpa [closing?, hk1] using hi, hinner⟩
    | semicolon => exact ih hk htail ho
    | lineBreak => exact ih hk htail ho
    | commentEnd => exact ih hk htail ho

theorem eventsAt_of_leftBrace {t : Bytes} {i : Nat} (h : t[i]? = some Ascii.leftBrace) :
    eventsAt t i = ⟨.openBrace, i⟩ :: eventsAt t (i + 1) := by
  obtain ⟨hi, hget⟩ := List.getElem?_eq_some_iff.mp h
  rw [eventsAt, List.drop_eq_getElem_cons hi, hget]
  rfl

theorem matchBrace_eq_ok_iff {t : Bytes} {i stop : Nat} : matchBrace t i = .ok stop ↔
    t[i]? = some Ascii.leftBrace ∧ closing? 1 (eventsAt t (i + 1)) = some stop := by
  rw [matchBrace_eq_ok]
  refine and_congr_right fun h => ?_
  rw [eventsAt_of_leftBrace h]
  rfl

theorem getElem?_lbrace {t : Bytes} {b : Block} (h : b ∈ messageBlocks t) :
    t[b.lbrace]? = some Ascii.leftBrace :=
  (matchBrace_eq_ok_iff.mp (matchBrace_of_mem h)).1

theorem getElem?_rbrace {t : Bytes} {b : Block} (h : b ∈ messageBlocks t) :
    t[b.rbrace]? = some Ascii.rightBrace ∧ b.lbrace < b.rbrace := by
  obtain ⟨-, hclosing⟩ := matchBrace_eq_ok_iff.mp (matchBrace_of_mem h)
  obtain ⟨i, c, hc, ho, hk⟩ := mem_eventsFrom.mp (mem_of_closing? hclosing)
  have hoff : b.rbrace = b.lbrace + 1 + i := ho
  have hclose : c = Ascii.rightBrace := by
    generalize Mode.run .code ((t.drop (b.lbrace + 1)).take i) = m at hk
    cases m <;> simp only [Mode.event?, EventKind.inCode?] at hk <;> grind
  rw [List.getElem?_drop, ← hoff, hclose] at hc
  exact ⟨hc, by omega⟩

theorem run_code_lbrace {t : Bytes} {b : Block} (hb : b ∈ messageBlocks t) :
    Mode.run .code (t.take b.lbrace) = .code := by
  obtain ⟨h, hh, hmask, hl, -⟩ := mem_messageBlocks.mp hb
  rw [hl]
  exact Head.run_code_lbrace hh hmask

theorem run_code_bodyStart {t : Bytes} {b : Block} (hb : b ∈ messageBlocks t) :
    Mode.run .code (t.take b.bodyStart) = .code := by
  obtain ⟨hi, hget⟩ := List.getElem?_eq_some_iff.mp (getElem?_lbrace hb)
  rw [Block.bodyStart, List.take_succ_eq_append_getElem hi, hget, Mode.run_append,
    run_code_lbrace hb]
  rfl

/-- A brace that opens in code behind the one of a message stands behind the message, or it is matched
inside. -/
theorem matchBrace_of_lt {t : Bytes} {a : Block} {o : Nat} (ha : a ∈ messageBlocks t)
    (hbrace : t[o]? = some Ascii.leftBrace) (hcode : Mode.run .code (t.take o) = .code)
    (hlt : a.lbrace < o) : a.rbrace < o ∨ ∃ stop, matchBrace t o = .ok stop ∧ stop < a.rbrace := by
  have hlen := (List.getElem?_eq_some_iff.mp hbrace).1
  obtain ⟨-, hclosing⟩ := matchBrace_eq_ok_iff.mp (matchBrace_of_mem ha)
  -- the scan of `a` reaches the other brace in code
  have hsplit : eventsAt t (a.lbrace + 1) = _ :=
    eventsAt_split (run_code_bodyStart ha) hcode hlt (Nat.le_of_lt hlen)
  rw [hsplit] at hclosing
  rcases closing?_append Nat.one_pos hclosing with hin | ⟨d, hd, hout⟩
  · left
    have hbounds := (bounds_of_mem_eventsFrom (mem_of_closing? hin)).2
    simp only [List.length_take] at hbounds
    omega
  · right
    rw [eventsAt_of_leftBrace hbrace] at hout
    have hout : closing? (1 + d) (eventsAt t (o + 1)) = some a.rbrace := by
      rw [Nat.add_comm]
      exact hout
    obtain ⟨stop, hstop, hinner⟩ :=
      exists_closing?_lt hd Nat.one_pos (pairwise_eventsFrom _ _ _) hout
    exact ⟨stop, matchBrace_eq_ok_iff.mpr ⟨hbrace, hstop⟩, hinner⟩

/-- Of two message blocks the later one lies inside the earlier one or behind it. -/
theorem nested_or_apart {t : Bytes} {a b : Block} (ha : a ∈ messageBlocks t)
    (hb : b ∈ messageBlocks t) (hlt : a.lbrace < b.lbrace) :
    b.rbrace < a.rbrace ∨ a.rbrace < b.lbrace := by
  have hmatch := matchBrace_of_mem hb
  rcases matchBrace_of_lt ha (matchBrace_eq_ok.mp hmatch).1 (run_code_lbrace hb) hlt with
    hout | ⟨stop, hstop, hin⟩
  · exact .inr hout
  · rw [hmatch, Except.ok.injEq] at hstop
    exact .inl (hstop ▸ hin)

end FieldTags
