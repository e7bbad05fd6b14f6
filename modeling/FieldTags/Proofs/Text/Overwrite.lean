import FieldTags.Proofs.Text.Substitution

/-! Substitution in a text by its pieces: numbers are overwritten by numbers, and nothing else
moves. Here the ranges of the edits count pieces. -/
namespace FieldTags

def Piece.retext (e : Option Edit) : Piece → Piece
  | .plain b h => .plain b h
  | .number n =>
    match e with
    | none => .number n
    | some e => if h : e.text.IsNumber then .number ⟨e.text, h.1, h.2⟩ else .number n

@[simp] theorem Piece.mark_retext (e : Option Edit) (p : Piece) : (p.retext e).mark = p.mark := by
  cases p with
  | plain b h => rfl
  | number n =>
    cases e with
    | none => rfl
    | some e =>
      by_cases h : e.text.IsNumber
      · simp [retext, h, mark]
      · simp [retext, h]

@[simp] theorem Piece.retext_none (p : Piece) : p.retext none = p := by
  cases p <;> rfl

theorem Piece.text_retext {p : Piece} (hp : Ascii.isDigit p.mark = true) {e : Edit}
    (he : e.text.IsNumber) : (p.retext (some e)).text = e.text := by
  cases p with
  | plain b hb =>
    rw [mark, hb] at hp
    simp at hp
  | number n => simp [retext, he, text]

theorem Piece.retext_some {e : Edit} (h : e.text.IsNumber) (p : Piece) (f : Option Edit) :
    (p.retext f).retext (some e) = p.retext (some e) := by
  cases p with
  | plain b hb => rfl
  | number n =>
    cases f with
    | none => rfl
    | some f =>
      by_cases hf : f.text.IsNumber
      · simp [retext, h, hf]
      · simp [retext, h, hf]

namespace Pieces

def overwriteFrom (es : List Edit) : Nat → Pieces → Pieces
  | _, [] => []
  | k, p :: ps => p.retext (es.find? (·.start = k)) :: overwriteFrom es (k + 1) ps

/-- The pieces with new numbers; the edits count pieces. -/
def overwrite (es : List Edit) (ps : Pieces) : Pieces := overwriteFrom es 0 ps

theorem getElem?_overwriteFrom (es : List Edit) (k : Nat) (ps : Pieces) (i : Nat) :
    (overwriteFrom es k ps)[i]? = ps[i]?.map (·.retext (es.find? (·.start = k + i))) := by
  induction ps generalizing k i with
  | nil => simp [overwriteFrom]
  | cons p ps ih =>
    cases i with
    | zero => simp [overwriteFrom]
    | succ i => simp [overwriteFrom, ih, Nat.add_assoc, Nat.add_comm 1]

@[simp] theorem getElem?_overwrite (es : List Edit) (ps : Pieces) (i : Nat) :
    (overwrite es ps)[i]? = ps[i]?.map (·.retext (es.find? (·.start = i))) := by
  simpa [overwrite] using getElem?_overwriteFrom es 0 ps i

theorem shape_overwriteFrom (es : List Edit) (k : Nat) (ps : Pieces) :
    shape (overwriteFrom es k ps) = shape ps := by
  induction ps generalizing k with
  | nil => rfl
  | cons p ps ih => simp [overwriteFrom, ih]

@[simp] theorem shape_overwrite (es : List Edit) (ps : Pieces) :
    shape (overwrite es ps) = shape ps :=
  shape_overwriteFrom es 0 ps

theorem overwriteFrom_append (es : List Edit) (k : Nat) (ps qs : Pieces) :
    overwriteFrom es k (ps ++ qs) =
      overwriteFrom es k ps ++ overwriteFrom es (k + ps.length) qs := by
  induction ps generalizing k with
  | nil => rfl
  | cons p ps ih => simp [overwriteFrom, ih, Nat.add_assoc, Nat.add_comm 1]

theorem overwriteFrom_of_outside {es : List Edit} {k : Nat} {ps : Pieces}
    (h : ∀ e ∈ es, e.start < k ∨ k + ps.length ≤ e.start) : overwriteFrom es k ps = ps := by
  apply List.ext_getElem?
  intro i
  rw [getElem?_overwriteFrom]
  by_cases hi : i < ps.length
  · have hn : es.find? (·.start = k + i) = none := by
      rw [List.find?_eq_none]
      intro e he hs
      have := h e he
      simp only [decide_eq_true_eq] at hs
      omega
    simp [hn]
  · simp [List.getElem?_eq_none (Nat.le_of_not_lt hi)]

theorem overwriteFrom_shift (es : List Edit) (k i : Nat) (ps : Pieces) :
    overwriteFrom (es.map (Edit.shift k)) (k + i) ps = overwriteFrom es i ps := by
  apply List.ext_getElem?
  intro j
  rw [getElem?_overwriteFrom, getElem?_overwriteFrom, List.find?_map]
  have hp : ((fun e : Edit => decide (e.start = k + i + j)) ∘ Edit.shift k) =
      fun e => decide (e.start = i + j) := by
    funext e
    simp [Edit.shift, Nat.add_assoc]
  rw [hp]
  cases h : es.find? (·.start = i + j) with
  | none => rfl
  | some e =>
    cases hq : ps[j]? with
    | none => rfl
    | some q => cases q <;> rfl

/-- Overwriting twice is overwriting once, the later edits first. -/
theorem overwrite_overwrite {es : List Edit} (h : ∀ e ∈ es, e.text.IsNumber) (fs : List Edit)
    (ps : Pieces) : overwrite es (overwrite fs ps) = overwrite (es ++ fs) ps := by
  apply List.ext_getElem?
  intro i
  simp only [getElem?_overwrite, List.find?_append, Option.map_map]
  congr 1
  funext p
  cases he : es.find? (·.start = i) with
  | none => simp
  | some e => simpa using Piece.retext_some (h e (List.mem_of_find?_eq_some he)) p _

theorem overwrite_shift {es : List Edit} {ps : Pieces} {i j : Nat} (hij : i ≤ j)
    (hj : j ≤ ps.length) (h : ∀ e ∈ es, i + e.start < j) :
    overwrite (es.map (Edit.shift i)) ps =
      ps.take i ++ overwrite es (ps.between i j) ++ ps.drop j := by
  have hs : ps = ps.take i ++ (ps.between i j ++ ps.drop j) := by
    have ht := List.take_append_drop i (ps.take j)
    rw [List.take_take, Nat.min_eq_left hij] at ht
    rw [between, ← List.append_assoc, ht, List.take_append_drop]
  have hi : (ps.take i).length = i := by
    rw [List.length_take]
    omega
  have hb : (ps.between i j).length = j - i := by
    rw [between, List.length_drop, List.length_take]
    omega
  conv_lhs => rw [hs]
  rw [overwrite, overwriteFrom_append, overwriteFrom_append, hi, hb, ← List.append_assoc]
  congr 1
  · congr 1
    · apply overwriteFrom_of_outside
      simp [Edit.shift, hi]
    · rw [Nat.zero_add]
      exact overwriteFrom_shift es i 0 (ps.between i j)
  · apply overwriteFrom_of_outside
    simp only [List.mem_map, forall_exists_index, and_imp, forall_apply_eq_imp_iff₂, Edit.shift]
    intro e he
    have := h e he
    omega

/-- The edits of single numbers of a text whose shape is `t`. -/
def Retags (t : Bytes) (es : List Edit) : Prop :=
  ∀ e ∈ es, e.stop = e.start + 1 ∧ (∃ b, t[e.start]? = some b ∧ Ascii.isDigit b = true) ∧
    e.text.IsNumber

theorem find?_map_move (es : List Edit) (ps : Pieces) (k : Nat) :
    (es.map (Edit.move (offset ps))).find? (·.start = offset ps k) =
      (es.find? (·.start = k)).map (Edit.move (offset ps)) := by
  rw [List.find?_map]
  congr 2
  funext e
  have h : offset ps e.start = offset ps k ↔ e.start = k :=
    ⟨fun h => offset_inj h, fun h => by rw [h]⟩
  simp [Edit.move, h]

/-- At a piece the substitution writes the piece with its new number and goes on behind it. -/
theorem substituteFrom_piece {es : List Edit} {ps : Pieces} (h : Retags (shape ps) es) {k : Nat}
    {p : Piece} (hp : ps[k]? = some p) (t : Bytes) :
    Edit.substituteFrom (es.map (Edit.move (offset ps))) (offset ps k) 0 (p.text ++ t) =
      (p.retext (es.find? (·.start = k))).text ++
        Edit.substituteFrom (es.map (Edit.move (offset ps))) (offset ps (k + 1)) 0 t := by
  have hnext := offset_succ hp
  cases hf : es.find? (·.start = k) with
  | none =>
    rw [Piece.retext_none, hnext, Edit.substituteFrom_append]
    intro e he
    obtain ⟨f, hm, rfl⟩ := List.mem_map.mp he
    have hne : f.start ≠ k := by simpa using List.find?_eq_none.mp hf f hm
    rw [← hnext]
    simp only [Edit.move, offset_lt_iff, offset_le_iff]
    omega
  | some e =>
    obtain ⟨hstop, ⟨b, hb, hdigit⟩, hn⟩ := h e (List.mem_of_find?_eq_some hf)
    have hs : e.start = k := by simpa using List.find?_some hf
    have hmark : Ascii.isDigit p.mark = true := by
      obtain ⟨q, hq, rfl⟩ := exists_of_shape hb
      rw [hs, hp, Option.some.injEq] at hq
      rwa [hq]
    have hmoved : (es.map (Edit.move (offset ps))).find? (·.start = offset ps k) =
        some (e.move (offset ps)) := by
      rw [find?_map_move, hf]
      rfl
    have hrange : (e.move (offset ps)).stop = offset ps k + p.text.length := by
      rw [Edit.move, hstop, hs, hnext]
    rw [Edit.substituteFrom_find? hmoved (List.ne_nil_of_length_pos p.text_length_pos) hrange,
      Piece.text_retext hmark hn, hnext]
    rfl

theorem substituteFrom_text {es : List Edit} (ps qs : Pieces)
    (h : Retags (shape (ps ++ qs)) es) :
    Edit.substituteFrom (es.map (Edit.move (offset (ps ++ qs)))) (offset (ps ++ qs) ps.length) 0
      (text qs) = text (overwriteFrom es ps.length qs) := by
  induction qs generalizing ps with
  | nil => simp [Edit.substituteFrom, overwriteFrom]
  | cons q qs ih =>
    have hps : ps ++ q :: qs = ps ++ [q] ++ qs := by simp
    have hlen : (ps ++ [q]).length = ps.length + 1 := by simp
    have hq : (ps ++ q :: qs)[ps.length]? = some q := by simp
    have ih := ih (ps ++ [q]) (by rwa [← hps])
    rw [← hps, hlen] at ih
    rw [text_cons, substituteFrom_piece h hq, ih, overwriteFrom, text_cons]

/-- Substituting numbers in a text is overwriting its pieces. -/
theorem substitute_text {es : List Edit} {ps : Pieces} (h : Retags (shape ps) es) :
    Edit.substitute (es.map (Edit.move (offset ps))) (text ps) = text (overwrite es ps) := by
  simpa [Edit.substitute, overwrite] using substituteFrom_text [] ps h

end Pieces
end FieldTags
