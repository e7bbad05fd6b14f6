import FieldTags.Proofs.Document.Calls
import FieldTags.Proofs.Shape.Place

/-! What any number of passes can do to a text. Whatever slices a pass with stale offsets hands to the
rewriter, the tags it finds in them are tags of the whole text, and writing a number over a tag leaves
the places of all tags as they are. So the passes only ever give tags new numbers. -/
namespace FieldTags

theorem Edit.Ascending.mono {es : List Edit} {position later stop : Nat}
    (h : Ascending later stop es) (hle : position ≤ later) : Ascending position stop es := by
  cases es with
  | nil => exact trivial
  | cons e es => exact ⟨Nat.le_trans hle h.1, h.2⟩

theorem Edit.applyFrom_append {es : List Edit} {position stop : Nat} (s t : Bytes)
    (h : Ascending (position + s.length) stop es) :
    applyFrom position es (s ++ t) = s ++ applyFrom (position + s.length) es t := by
  cases es with
  | nil => rfl
  | cons e es =>
    obtain ⟨hstart, hstop, -, -⟩ := h
    have hfront : e.start - position = s.length + (e.start - (position + s.length)) := by omega
    have hback : e.stop - position = s.length + (e.stop - (position + s.length)) := by omega
    rw [applyFrom, applyFrom, hfront, hback, List.take_length_add_append,
      List.drop_length_add_append, List.append_assoc, List.append_assoc, List.append_assoc]

namespace Pieces

/-- The pieces `qs` are `ps`, but tags may have other numbers, which are positive and written without
leading zeros. -/
structure Retagged (ps qs : Pieces) : Prop where
  shape : shape qs = shape ps
  pieces : ∀ k, qs[k]? = ps[k]? ∨ TagPlace (Pieces.shape ps) k (k + 1) ∧
    ∃ q n, qs[k]? = some q ∧ 0 < n ∧ q.text = Ascii.decimal n

namespace Retagged

theorem refl (ps : Pieces) : Retagged ps ps := ⟨rfl, fun _ => .inl rfl⟩

theorem trans {ps qs rs : Pieces} (h : Retagged ps qs) (h' : Retagged qs rs) : Retagged ps rs := by
  refine ⟨h'.shape.trans h.shape, fun k => ?_⟩
  cases h'.pieces k with
  | inl hsame =>
    rw [hsame]
    exact h.pieces k
  | inr hnew =>
    rw [h.shape] at hnew
    exact .inr hnew

end Retagged

theorem exists_move_of_isRetag {ps : Pieces} (hs : Separated (shape ps)) {es : List Edit}
    (h : ∀ e ∈ es, e.IsRetag (text ps)) :
    ∃ ds : List Edit, es = ds.map (Edit.move (offset ps)) ∧
      ∀ d ∈ ds, d.stop = d.start + 1 ∧ d.IsRetag (shape ps) := by
  induction es with
  | nil => exact ⟨[], rfl, by simp⟩
  | cons e es ih =>
    obtain ⟨he, hes⟩ := List.forall_mem_cons.mp h
    obtain ⟨ds, hmap, hds⟩ := ih hes
    obtain ⟨k, hstart, hstop, hplace⟩ := exists_tagPlace hs he.place
    obtain ⟨n, hn, htext⟩ := he.positive
    refine ⟨⟨k, k + 1, e.text⟩ :: ds, ?_, List.forall_mem_cons.mpr ⟨⟨rfl, ?_⟩, hds⟩⟩
    · rw [List.map_cons, hmap, Edit.move, ← hstart, ← hstop]
    · rw [htext]
      exact Edit.isRetag_of_place hplace hn

theorem retagged_overwrite {ps : Pieces} {ds : List Edit}
    (h : ∀ d ∈ ds, d.stop = d.start + 1 ∧ d.IsRetag (shape ps)) : Retagged ps (overwrite ds ps) := by
  refine ⟨shape_overwrite ds ps, fun k => ?_⟩
  rw [getElem?_overwrite]
  cases hd : ds.find? (·.start = k) with
  -- a piece that no edit speaks of is kept
  | none => left; simp
  | some d =>
    obtain ⟨hstop, hretag⟩ := h d (List.mem_of_find?_eq_some hd)
    have hstart : d.start = k := by simpa using List.find?_some hd
    cases hp : ps[k]? with
    | none => exact .inl rfl
    | some p =>
      cases p with
      | plain b hb => exact .inl rfl
      | number m =>
        obtain ⟨n, hn, htext⟩ := hretag.positive
        have hplace := hretag.place
        rw [hstop, hstart] at hplace
        have hnumber : d.text.IsNumber := htext ▸ Ascii.isNumber_decimal n
        have hnew : (Piece.number m).retext (some d) = .number ⟨d.text, hnumber.1, hnumber.2⟩ :=
          dif_pos hnumber
        exact .inr ⟨hplace, _, n, congrArg some hnew, hn, htext⟩

/-- What stands in `qs` for other numbers of `ps`, as edits of their text, which begins at `position`. -/
def changes : Nat → Pieces → Pieces → List Edit
  | position, p :: ps, q :: qs =>
    let later := changes (position + p.text.length) ps qs
    if p.text = q.text then later else ⟨position, position + p.text.length, q.text⟩ :: later
  | _, _, _ => []

theorem ascending_changes (position : Nat) (ps qs : Pieces) :
    Edit.Ascending position (position + (text ps).length) (changes position ps qs) := by
  induction ps generalizing position qs with
  | nil => exact trivial
  | cons p ps ih =>
    cases qs with
    | nil => exact trivial
    | cons q qs =>
      have hpos := p.text_length_pos
      have hlater := ih (position + p.text.length) qs
      rw [text_cons, List.length_append, ← Nat.add_assoc, changes]
      split
      · exact hlater.mono (by omega)
      · refine ⟨Nat.le_refl _, ?_, ?_, hlater⟩
        · change position < position + p.text.length
          omega
        · change position + p.text.length ≤ _
          omega

theorem applyFrom_changes (position : Nat) {ps qs : Pieces} (h : ps.length = qs.length) :
    Edit.applyFrom position (changes position ps qs) (text ps) = text qs := by
  induction ps generalizing position qs with
  | nil =>
    obtain rfl : qs = [] := List.eq_nil_of_length_eq_zero h.symm
    rfl
  | cons p ps ih =>
    cases qs with
    | nil => simp at h
    | cons q qs =>
      have hlater := ih (position + p.text.length) (Nat.succ.inj h)
      rw [text_cons, text_cons, changes]
      split
      · rename_i hsame
        rw [Edit.applyFrom_append _ _ (ascending_changes _ ps qs), hlater, hsame]
      · simp only [Edit.applyFrom, Nat.sub_self, List.take_zero, List.nil_append,
          Nat.add_sub_cancel_left, List.drop_left, hlater]

theorem mem_changes {position : Nat} {ps qs : Pieces} {e : Edit} (h : e ∈ changes position ps qs) :
    ∃ (k : Nat) (p q : Piece), ps[k]? = some p ∧ qs[k]? = some q ∧ p ≠ q ∧
      e = ⟨position + offset ps k, position + offset ps (k + 1), q.text⟩ := by
  induction ps generalizing position qs with
  | nil => simp [changes] at h
  | cons p ps ih =>
    cases qs with
    | nil => simp [changes] at h
    | cons q qs =>
      have hlater : e ∈ changes (position + p.text.length) ps qs →
          ∃ (k : Nat) (p' q' : Piece), (p :: ps)[k]? = some p' ∧ (q :: qs)[k]? = some q' ∧ p' ≠ q' ∧
            e = ⟨position + offset (p :: ps) k, position + offset (p :: ps) (k + 1), q'.text⟩ := by
        intro h
        obtain ⟨k, p', q', hp, hq, hne, rfl⟩ := ih h
        refine ⟨k + 1, p', q', hp, hq, hne, ?_⟩
        simp only [offset_cons_succ, Nat.add_assoc]
      rw [changes] at h
      split at h
      · exact hlater h
      · rename_i hne
        cases List.mem_cons.mp h with
        | inl hfirst =>
          refine ⟨0, p, q, rfl, rfl, fun heq => hne (congrArg Piece.text heq), ?_⟩
          rw [hfirst]
          simp
        | inr hmem => exact hlater hmem

theorem Retagged.exists_edits {ps qs : Pieces} (h : Retagged ps qs) :
    ∃ es, Edit.Ascending 0 (text ps).length es ∧ (∀ e ∈ es, e.IsRetag (text ps)) ∧
      text qs = Edit.applyAll es (text ps) := by
  have hlength : ps.length = qs.length := by rw [← length_shape ps, ← h.shape, length_shape]
  have hascending := ascending_changes 0 ps qs
  rw [Nat.zero_add] at hascending
  refine ⟨changes 0 ps qs, hascending, fun e he => ?_, (applyFrom_changes 0 hlength).symm⟩
  obtain ⟨k, p, q, hp, hq, hne, rfl⟩ := mem_changes he
  rw [Nat.zero_add, Nat.zero_add]
  cases h.pieces k with
  | inl hsame =>
    rw [hp, hq] at hsame
    exact absurd (Option.some.inj hsame).symm hne
  | inr hnew =>
    obtain ⟨hplace, q', n, hq', hn, htext⟩ := hnew
    obtain rfl : q = q' := Option.some.inj (hq.symm.trans hq')
    rw [htext]
    exact Edit.isRetag_of_place (tagPlace_text.mpr hplace) hn

end Pieces

def Bytes.Retagged (t u : Bytes) : Prop := (Pieces.ofText t).Retagged (Pieces.ofText u)

open Pieces

theorem retagged_substitute {t : Bytes} {es : List Edit} (h : ∀ e ∈ es, e.IsRetag t) :
    t.Retagged (Edit.substitute es t) := by
  have hs := separated_ofText t
  have htext := text_ofText t
  rw [Bytes.Retagged]
  generalize ofText t = ps at hs htext ⊢
  subst htext
  obtain ⟨ds, rfl, hds⟩ := exists_move_of_isRetag hs h
  have hretags : Retags (shape ps) ds := by
    intro d hd
    obtain ⟨hstop, hretag⟩ := hds d hd
    obtain ⟨n, -, htext⟩ := hretag.positive
    refine ⟨hstop, hretag.place.getElem?_start, ?_⟩
    rw [htext]
    exact Ascii.isNumber_decimal n
  -- the numbers stay apart, so the new text is read as these same pieces again
  have hnew : Separated (shape (Pieces.overwrite ds ps)) := by rwa [shape_overwrite]
  rw [substitute_text hretags, ofText_text hnew]
  exact retagged_overwrite hds

/-- Renumbering a slice retags the whole text, whatever the slice cuts through. -/
theorem retagged_splice {t body : Bytes} {i j : Nat} (h : t.slice? i j = some body) :
    t.Retagged (t.splice i j (renumberBody body)) := by
  have hwhole : t.take i ++ body ++ t.drop j = t := Bytes.splice_of_slice? h
  have hinside : ∀ e ∈ retag (fields body), e.start < e.stop ∧ e.stop ≤ body.length := by
    intro e he
    have hplace := (isRetag_of_mem_retag he).place
    exact ⟨hplace.start_lt_stop, Nat.le_of_lt hplace.stop_lt⟩
  have hretag : ∀ e ∈ (retag (fields body)).map (Edit.shift (t.take i).length), e.IsRetag t := by
    rw [List.forall_mem_map]
    intro e he
    have hframed := (isRetag_of_mem_retag he).framed (t.take i) (t.drop j)
    rwa [hwhole] at hframed
  have hsubstitute := Edit.substitute_framed hinside (t.take i) (t.drop j)
  rw [hwhole, ← renumberBody_eq_substitute] at hsubstitute
  rw [Bytes.splice, ← hsubstitute]
  exact retagged_substitute hretag

theorem retagged_passFrom (offsets : Offsets) (place : Block → Block) (t : Bytes)
    (blocks : List Block) :
    t.Retagged (passFrom offsets (.pure renumber) place () t blocks).1 := by
  induction blocks generalizing place t with
  | nil => exact Retagged.refl _
  | cons b blocks ih =>
    rw [passFrom]
    cases hslice : t.slice? (place b).bodyStart (place b).rbrace with
    | none => exact ih place t
    | some body => exact (retagged_splice hslice).trans (ih _ _)

theorem retagged_of_mem_renumberPasses {modes : List Offsets} {t : Bytes} {o : Outcome}
    (h : o ∈ renumberPasses modes t) : t.Retagged o.text := by
  induction modes generalizing t with
  | nil => simp [renumberPasses] at h
  | cons offsets modes ih =>
    have hfirst : t.Retagged (renumberDocument offsets t).text := retagged_passFrom offsets id t _
    rw [renumberPasses] at h
    cases List.mem_cons.mp h with
    | inl heq => rwa [heq]
    | inr hmem => exact hfirst.trans (ih hmem)

/-- After each of any number of passes, with tracked and fixed offsets in any order, the text is the one
before the first pass with some of its tags replaced by positive numbers. The ranges are apart and all
speak of the first text, so every byte outside of them is kept. -/
theorem renumberPasses_retags (modes : List Offsets) (t : Bytes) {o : Outcome}
    (h : o ∈ renumberPasses modes t) :
    ∃ es, Edit.Ascending 0 t.length es ∧ (∀ e ∈ es, e.IsRetag t) ∧ o.text = Edit.applyAll es t := by
  have hedits := (retagged_of_mem_renumberPasses h).exists_edits
  rwa [text_ofText, text_ofText] at hedits

/-- The pass with fixed offsets reaches beyond the outer message here, and numbers what stands behind
it. -/
theorem renumberPasses_retags_stale :
    let t := Ascii.word "message A { message B { b x = 70000000000; } b y = 30; } b z = 9;"
    let first := renumberDocument .fixed t
    let second := renumberDocument .tracked first.text
    first.text = Ascii.word "message A { message B { b x = 1; } b y = 1; } b z = 2;" ∧
      second ∈ renumberPasses [.fixed, .tracked] t ∧
      ∃ es, Edit.Ascending 0 t.length es ∧ (∀ e ∈ es, e.IsRetag t) ∧
        second.text = Edit.applyAll es t := by
  intro t first second
  have hsecond : second ∈ renumberPasses [.fixed, .tracked] t := by simp [renumberPasses, second, first]
  exact ⟨by decide +kernel, hsecond, renumberPasses_retags [.fixed, .tracked] t hsecond⟩

end FieldTags
