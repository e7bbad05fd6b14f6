import FieldTags.Proofs.Document.Sequence

/-! When edits of numbers leave a text as it is: exactly when each number already stands as the edits
give it. -/
namespace FieldTags
namespace Pieces

theorem written_move (es : List Edit) (ps : Pieces) (k : Nat) :
    written (es.map (Edit.move (offset ps))) (offset ps k) = written es k := by
  rw [written, find?_map_move, Option.map_map]
  rfl

section
variable {es : List Edit} {ps : Pieces}

theorem getElem?_overwrite_eq_iff {e : Edit} (h : Retags (shape ps) es) (he : e ∈ es) :
    (overwrite es ps)[e.start]? = ps[e.start]? ↔
      text (ps.between e.start e.stop) = written es e.start := by
  obtain ⟨hone, ⟨b, hb, -⟩, -⟩ := h e he
  obtain ⟨p, hp, -⟩ := exists_of_shape hb
  have hq := getElem?_overwrite es ps e.start
  rw [hp, Option.map_some] at hq
  rw [← text_between_overwrite h he, hone, between_one hp, between_one hq, hp, hq, Option.some.injEq]
  constructor
  · intro heq
    rw [heq]
  · intro heq
    exact (Piece.eq_of_text (by simpa using heq)).symm

theorem getElem?_overwrite_of_ne {k : Nat} (h : ∀ e ∈ es, e.start ≠ k) :
    (overwrite es ps)[k]? = ps[k]? := by
  have hnone : es.find? (·.start = k) = none := by simpa using h
  simp [hnone]

theorem overwrite_eq_self_iff (h : Retags (shape ps) es) :
    overwrite es ps = ps ↔ ∀ e ∈ es, text (ps.between e.start e.stop) = written es e.start := by
  constructor
  · intro heq e he
    rw [← getElem?_overwrite_eq_iff h he, heq]
  · intro hall
    refine List.ext_getElem? fun k => ?_
    by_cases hk : ∃ e ∈ es, e.start = k
    · obtain ⟨e, he, rfl⟩ := hk
      exact (getElem?_overwrite_eq_iff h he).mpr (hall e he)
    · exact getElem?_overwrite_of_ne fun e he hek => hk ⟨e, he, hek⟩

/-- The edits are for whole numbers of the text and give them numbers. -/
def OfNumbers (t : Bytes) (es : List Edit) : Prop :=
  ∃ ds, es = ds.map (Edit.move (offset (ofText t))) ∧ Retags (shape (ofText t)) ds

theorem ofNumbers_claims (t : Bytes) : OfNumbers t (claims t) := by
  refine ⟨claims (shape (ofText t)), ?_, retags_claims (separated_ofText t)⟩
  rw [← claims_text, text_ofText]

theorem ofNumbers_retag (body : Bytes) : OfNumbers body (retag (fields body)) := by
  refine ⟨retag (fields (shape (ofText body))), ?_, retags_fields (separated_ofText body)⟩
  rw [← retag_text, text_ofText]

theorem OfNumbers.substitute_eq_self_iff {t : Bytes} {es : List Edit} (h : OfNumbers t es) :
    Edit.substitute es t = t ↔ ∀ e ∈ es, t.between e.start e.stop = written es e.start := by
  obtain ⟨ds, rfl, hds⟩ := h
  have hs := separated_ofText t
  have htext := text_ofText t
  generalize ofText t = ps at hds hs htext
  subst htext
  have hkeep : text (overwrite ds ps) = text ps ↔ overwrite ds ps = ps :=
    ⟨eq_of_text (by rwa [shape_overwrite]) hs, congrArg text⟩
  rw [substitute_text hds, hkeep, overwrite_eq_self_iff hds, List.forall_mem_map]
  simp only [Edit.move, written_move, between_offset]

end
end Pieces
end FieldTags
