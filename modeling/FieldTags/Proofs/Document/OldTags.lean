import FieldTags.Proofs.Document.Renumbering

/-! The old tags do not matter: documents that differ only in the digits of claimed tags are
renumbered to the same text. -/
namespace FieldTags

/-- The edits give new digits to tags that `t` claims, to any of them and in any number. -/
def Redigits (t : Bytes) (es : List Edit) : Prop :=
  ∀ e ∈ es, (∃ c ∈ claims t, e.start = c.start ∧ e.stop = c.stop) ∧ e.text.IsNumber

instance (t : Bytes) (es : List Edit) : Decidable (Redigits t es) :=
  inferInstanceAs (Decidable (∀ e ∈ es, _ ∧ _))

namespace Pieces

theorem exists_of_redigits {ps : Pieces} (hs : Separated (shape ps)) {es : List Edit}
    (h : Redigits (text ps) es) :
    ∃ ds, es = ds.map (Edit.move (offset ps)) ∧ Retags (shape ps) ds ∧
      ∀ d ∈ ds, ∃ c ∈ claims (shape ps), c.start = d.start := by
  induction es with
  | nil => exact ⟨[], rfl, by simp [Retags], by simp⟩
  | cons e es ih =>
    obtain ⟨ds, hds, hretags, hclaimed⟩ := ih fun e he => h e (by simp [he])
    obtain ⟨⟨c, hc, hstart, hstop⟩, hnumber⟩ := h e (by simp)
    rw [claims_text] at hc
    obtain ⟨d, hd, rfl⟩ := List.mem_map.mp hc
    obtain ⟨hone, hdigit, -⟩ := retags_claims hs d hd
    refine ⟨⟨d.start, d.stop, e.text⟩ :: ds, ?_, ?_, ?_⟩
    · rw [List.map_cons, ← hds]
      congr 1
      obtain ⟨start, stop, text⟩ := e
      simp only at hstart hstop
      rw [hstart, hstop]
      rfl
    · exact List.forall_mem_cons.mpr ⟨⟨hone, hdigit, hnumber⟩, hretags⟩
    · exact List.forall_mem_cons.mpr ⟨⟨d, hd, rfl⟩, hclaimed⟩

/-- What is written under later edits of the same numbers does not show. -/
theorem overwrite_covered {es ds : List Edit} (hes : ∀ e ∈ es, e.text.IsNumber)
    (h : ∀ d ∈ ds, ∃ e ∈ es, e.start = d.start) (ps : Pieces) :
    overwrite es (overwrite ds ps) = overwrite es ps := by
  rw [overwrite_overwrite hes]
  refine List.ext_getElem? fun i => ?_
  rw [getElem?_overwrite, getElem?_overwrite, List.find?_append]
  cases hfind : es.find? (·.start = i) with
  | some e => rfl
  | none =>
    have hds : ds.find? (·.start = i) = none := by
      rw [List.find?_eq_none] at hfind ⊢
      intro d hd hi
      obtain ⟨e, he, hstart⟩ := h d hd
      have hi : d.start = i := by simpa using hi
      exact hfind e he (by simp [hstart, hi])
    rw [hds]
    rfl

/-- Whatever digits the claimed tags had, the same blocks are settled, with the same counts, over the
same text. -/
theorem settled_of_redigits {ps : Pieces} (hs : Separated (shape ps))
    (hstart : BodiesStart (shape ps)) {es : List Edit} (hes : Redigits (text ps) es) :
    Settled (messageBlocks (shape ps)).reverse (fun b => (fields (bodyOf (shape ps) b)).length)
      (text (overwrite (claims (shape ps)) ps))
      (renumberDocument .tracked (Edit.substitute es (text ps))) := by
  obtain ⟨ds, rfl, hretags, hclaimed⟩ := exists_of_redigits hs hes
  have hshape : shape (overwrite ds ps) = shape ps := shape_overwrite ds ps
  have h := @renumberDocument_text (overwrite ds ps) (by rwa [hshape]) (by rwa [hshape])
  rwa [hshape, overwrite_covered (fun _ he => isNumber_of_mem_claims he) hclaimed,
    ← substitute_text hretags] at h

end Pieces

theorem redigits_claims (t : Bytes) : Redigits t (claims t) := fun e he =>
  ⟨⟨e, he, rfl, rfl⟩, isNumber_of_mem_claims he⟩

theorem renumberDocument_again {t : Bytes} (hv : Utf8.isValid t = true) :
    (renumberDocument .tracked (renumberDocument .tracked t).text).text =
      (renumberDocument .tracked t).text := by
  have hstart := bodiesStart_of_isValid hv
  rw [(renumberDocument_settled hstart).text]
  obtain ⟨ps, rfl, hs, hbodies⟩ := Pieces.exists_text_eq hstart
  rw [(Pieces.settled_of_redigits hs hbodies (redigits_claims _)).text, Pieces.claims_text,
    Pieces.substitute_text (Pieces.retags_claims hs)]

/-- Giving any claimed tags of a document any other digits changes neither its renumbered text nor
the counts; renumbering twice is the same as renumbering once. -/
theorem renumberDocument_redigits {t : Bytes} (hv : Utf8.isValid t = true) :
    (∀ es, Redigits t es →
      (renumberDocument .tracked (Edit.substitute es t)).text =
        (renumberDocument .tracked t).text ∧
      (renumberDocument .tracked (Edit.substitute es t)).messages =
        (renumberDocument .tracked t).messages ∧
      (renumberDocument .tracked (Edit.substitute es t)).fields =
        (renumberDocument .tracked t).fields) ∧
    (renumberDocument .tracked (renumberDocument .tracked t).text).text =
      (renumberDocument .tracked t).text := by
  refine ⟨fun es hes => ?_, renumberDocument_again hv⟩
  obtain ⟨ps, rfl, hs, hbodies⟩ := Pieces.exists_text_eq (bodiesStart_of_isValid hv)
  have hold := Pieces.renumberDocument_text hs hbodies
  have hnew := Pieces.settled_of_redigits hs hbodies hes
  refine ⟨?_, ?_, ?_⟩
  · rw [hnew.text, hold.text]
  · rw [Outcome.messages_of_settled hnew, Outcome.messages_of_settled hold]
  · rw [Outcome.fields_of_settled hnew, Outcome.fields_of_settled hold]

theorem renumberDocument_redigits_wide :
    (renumberDocument .tracked (Edit.substitute [⟨18, 19, Ascii.word "0099"⟩]
      (Ascii.word "message A { b y = 3; b z = 4; }"))).text =
    (renumberDocument .tracked (Ascii.word "message A { b y = 3; b z = 4; }")).text :=
  ((renumberDocument_redigits (by decide +kernel)).1 _ (by decide +kernel)).1

end FieldTags
