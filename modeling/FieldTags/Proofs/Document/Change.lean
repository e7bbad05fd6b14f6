import FieldTags.Proofs.Document.Calls
import FieldTags.Proofs.Document.Parts
import FieldTags.Proofs.Document.Standing

/-! Whether a pass reports a change. It reports one as soon as some body was rewritten; a tag that two
messages number differently is rewritten twice, and the second number may be the one it had. -/
namespace FieldTags
open Pieces

theorem between_shift {t : Bytes} {b : Block} (hb : b ∈ messageBlocks t) {e : Edit}
    (he : e ∈ retag (fields (bodyOf t b))) :
    t.between (e.shift b.bodyStart).start (e.shift b.bodyStart).stop =
      (bodyOf t b).between e.start e.stop := by
  have hin := (ownClaims_inside hb (shift_mem_ownClaims he)).2.2
  simp only [Edit.shift] at hin ⊢
  rw [bodyOf, Bytes.between, Bytes.between, Bytes.between, List.take_drop, List.take_take,
    Nat.min_eq_left (Nat.le_of_lt hin), List.drop_drop]

theorem renumberBody_eq_self_iff {t : Bytes} {b : Block} (hb : b ∈ messageBlocks t) :
    renumberBody (bodyOf t b) = bodyOf t b ↔
      ∀ e ∈ ownClaims t b, t.between e.start e.stop = e.text := by
  have hagreed := agreed_iff_written.mp (ascending_retag (bodyOf t b)).agreed
  rw [renumberBody_eq_substitute, (ofNumbers_retag _).substitute_eq_self_iff, ownClaims_eq_retag,
    List.forall_mem_map]
  refine forall₂_congr fun e he => ?_
  rw [hagreed e he, between_shift hb he]
  rfl

/-- No body is rewritten in a pass exactly if all claimed tags show the numbers they are claimed
with. -/
theorem changed_eq_false_iff {t : Bytes} (hstart : BodiesStart t) :
    (renumberDocument .tracked t).changed = false ↔
      ∀ e ∈ claims t, t.between e.start e.stop = e.text := by
  have hpass := passFrom_unchanged_iff .tracked (.pure renumber) hstart ()
    fun b hb => List.mem_reverse.mp hb
  rw [Rewriter.answers_pure, List.map_map, List.map_map, List.map_inj_left] at hpass
  rw [Outcome.changed_eq_false]
  refine hpass.trans ?_
  simp only [claims, List.mem_reverse, Function.comp_apply, renumber_text, List.mem_flatMap,
    forall_exists_index, and_imp]
  constructor
  · intro h e b hb he
    exact (renumberBody_eq_self_iff hb).mp (h b hb) e he
  · intro h b hb
    exact (renumberBody_eq_self_iff hb).mpr fun e he => h e b hb he

/-- A pass reports a change exactly if it changes the text or a tag is claimed with two different
numbers. -/
theorem changed_renumberDocument {t : Bytes} (hv : Utf8.isValid t = true) :
    (renumberDocument .tracked t).changed = true ↔
      (renumberDocument .tracked t).text ≠ t ∨ ¬ Agreed (claims t) := by
  have hstart := bodiesStart_of_isValid hv
  rw [← not_iff_not, not_or, not_not, not_not, Bool.not_eq_true, changed_eq_false_iff hstart,
    (renumberDocument_settled hstart).text, (ofNumbers_claims t).substitute_eq_self_iff]
  constructor
  · intro hshown
    have hagreed : Agreed (claims t) := by
      intro e he f hf heq
      have hstop : e.stop = f.stop := by
        have hin := (claims_inside e he).1
        have hfin := (claims_inside f hf).1
        have := claims_same_or_apart he hf
        omega
      rw [← hshown e he, ← hshown f hf, heq, hstop]
    refine ⟨fun e he => ?_, hagreed⟩
    rw [hshown e he, agreed_iff_written.mp hagreed e he]
  · intro ⟨hwritten, hagreed⟩ e he
    rw [hwritten e he, agreed_iff_written.mp hagreed e he]

/-- The report of a change is exact for a text, unless that text is left as it is although a tag in
it is claimed with two different numbers. -/
theorem changed_exact_iff {t : Bytes} (hv : Utf8.isValid t = true) :
    ((renumberDocument .tracked t).changed = true ↔ (renumberDocument .tracked t).text ≠ t) ↔
      ((renumberDocument .tracked t).text = t → Agreed (claims t)) := by
  rw [changed_renumberDocument hv]
  by_cases htext : (renumberDocument .tracked t).text = t
  · simp [htext]
  · simp [htext]

theorem changed_exact_nested :
    (renumberDocument .tracked
      (Ascii.word "message A { message B { b x = 1; } b y = 7; }")).changed = true ↔
    (renumberDocument .tracked (Ascii.word "message A { message B { b x = 1; } b y = 7; }")).text ≠
      Ascii.word "message A { message B { b x = 1; } b y = 7; }" :=
  (changed_exact_iff (by decide +kernel)).mpr fun _ => by decide +kernel

/-- The second declaration of the outer message has its tag in the nested one, which makes it 1
before it is made 2 again. -/
theorem changed_of_same_text :
    Utf8.isValid (Ascii.word "message O { int32 a = 1; map< message X { > name = 2; } }") = true ∧
    (renumberDocument .tracked
      (Ascii.word "message O { int32 a = 1; map< message X { > name = 2; } }")).changed = true ∧
    (renumberDocument .tracked
      (Ascii.word "message O { int32 a = 1; map< message X { > name = 2; } }")).text =
      Ascii.word "message O { int32 a = 1; map< message X { > name = 2; } }" := by
  decide +kernel

end FieldTags
