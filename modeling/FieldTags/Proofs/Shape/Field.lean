import FieldTags.Proofs.Field.Tags
import FieldTags.Proofs.Shape.Declaration
import FieldTags.Proofs.Text.Overwrite

/-! The direct fields of a body are those of its shape, and renumbering writes over their tags. -/
namespace FieldTags
namespace Pieces

/-- The field `f` of a text begins and has its tag where `g` does in the shape. -/
structure MirrorsField (ps : Pieces) (f g : Field) : Prop where
  start : f.start = offset ps g.start
  tagStart : f.tagStart = offset ps g.tagStart
  tagStop : f.tagStop = offset ps g.tagStop
  tag : f.declaration.tag = text (ps.between g.tagStart g.tagStop)

theorem Mirrors.field {ps : Pieces} {k : Nat} {d e : Declaration} (h : Mirrors (ps.drop k) d e) :
    MirrorsField ps ⟨offset ps k, d⟩ ⟨k, e⟩ := by
  refine ⟨rfl, ?_, ?_, ?_⟩
  · change offset ps k + d.tagStart = offset ps (k + e.tagStart)
    rw [h.tagStart, offset_add]
  · change offset ps k + d.tagStart + d.tag.length = offset ps (k + e.tagStart + e.tag.length)
    rw [Nat.add_assoc, h.tagStop, Nat.add_assoc, ← offset_add]
  · change d.tag = text (ps.between (k + e.tagStart) (k + e.tagStart + e.tag.length))
    rw [h.tag, between, between, Nat.add_assoc, List.take_drop, List.drop_drop]

theorem containsOffset_move (ps : Pieces) (nested : List Block) (k : Nat) :
    (nested.map (Block.move (offset ps))).any (·.containsOffset (offset ps k)) =
      nested.any (·.containsOffset k) := by
  rw [List.any_map]
  congr 1
  funext b
  simp [Block.containsOffset, Block.move]

theorem fieldsFrom_text (ps : Pieces) (nested : List Block) (free : Nat) (starts : List Nat) :
    List.Forall₂ (MirrorsField ps)
      (fieldsFrom (text ps) (nested.map (Block.move (offset ps))) (offset ps free)
        (starts.map (offset ps)))
      (fieldsFrom (shape ps) nested free starts) := by
  induction starts generalizing free with
  | nil => exact .nil
  | cons start starts ih =>
    rw [List.map_cons, fieldsFrom, fieldsFrom, containsOffset_move]
    simp only [offset_lt_iff]
    split
    · exact ih free
    · have hd := front?_declaration_text (ps.drop start)
      rw [← drop_offset, shape_drop] at hd
      generalize Declaration.front? ((text ps).drop (offset ps start)) = x at hd ⊢
      generalize Declaration.front? ((shape ps).drop start) = y at hd ⊢
      cases hd with
      | none => exact ih free
      | @some d e hm =>
        simp only [hm.option]
        split
        · exact ih free
        · have hstop : offset ps start + d.length = offset ps (start + e.length) := by
            rw [hm.length, offset_add]
          rw [hstop]
          exact .cons hm.field (ih _)

/-- The direct fields of a text and of its shape correspond one to one. -/
theorem fields_text (ps : Pieces) :
    List.Forall₂ (MirrorsField ps) (fields (text ps)) (fields (shape ps)) := by
  have h := fieldsFrom_text ps (messageBlocks (shape ps)) 0 (statementStarts (shape ps))
  rw [offset_zero, ← messageBlocks_text, ← statementStarts_text] at h
  exact h

theorem retagFrom_of_forall₂ {ps : Pieces} {fs gs : List Field}
    (h : List.Forall₂ (MirrorsField ps) fs gs) (tag : Nat) :
    retagFrom tag fs = (retagFrom tag gs).map (Edit.move (offset ps)) := by
  induction h generalizing tag with
  | nil => rfl
  | cons hfg _ ih =>
    rw [retagFrom, retagFrom, List.map_cons, ih, hfg.tagStart, hfg.tagStop]
    rfl

theorem retag_text (ps : Pieces) :
    retag (fields (text ps)) = (retag (fields (shape ps))).map (Edit.move (offset ps)) :=
  retagFrom_of_forall₂ (fields_text ps) 1

theorem Separated.tagStop {t : Bytes} (ht : Separated t) {f : Field} (hf : f ∈ fields t) :
    f.tagStop = f.tagStart + 1 ∧ ∃ b, t[f.tagStart]? = some b ∧ Ascii.isDigit b = true := by
  obtain ⟨htag, hlt, -, -⟩ := Field.tag_of_mem hf
  have hlen : f.tagStop = f.tagStart + f.declaration.tag.length := rfl
  have hchain : Separated (t.drop f.tagStart) := List.IsChain.drop ht _
  cases hd : t.drop f.tagStart with
  | nil =>
    rw [hd] at htag
    rw [htag] at hlen
    simp at hlen
    omega
  | cons b rest =>
    have hb : t[f.tagStart]? = some b := by
      rw [← Nat.add_zero f.tagStart, ← List.getElem?_drop, hd]
      rfl
    rw [hd] at htag hchain
    cases hdigit : Ascii.isDigit b with
    | false =>
      rw [List.takeWhile_cons, hdigit] at htag
      rw [htag] at hlen
      simp at hlen
      omega
    | true =>
      refine ⟨?_, b, hb, hdigit⟩
      have hone : rest.takeWhile Ascii.isDigit = [] := by
        cases rest with
        | nil => rfl
        | cons c rest =>
          have hc := (List.isChain_cons_cons.mp hchain).1 hdigit
          simp [hc]
      rw [List.takeWhile_cons, hdigit, if_pos rfl, hone] at htag
      rw [hlen, htag]
      rfl

theorem retags_fields {t : Bytes} (ht : Separated t) : Retags t (retag (fields t)) := by
  intro e he
  obtain ⟨⟨f, hf, hstart, hstop⟩, htext⟩ := mem_retag he
  obtain ⟨hone, b, hb, hdigit⟩ := ht.tagStop hf
  refine ⟨by rw [hstop, hstart, hone], ⟨b, ?_, hdigit⟩, htext⟩
  rw [hstart]
  exact hb

theorem renumberBody_text {ps : Pieces} (hs : Separated (shape ps)) :
    renumberBody (text ps) = text (overwrite (retag (fields (shape ps))) ps) := by
  rw [renumberBody_eq_substitute, retag_text, substitute_text (retags_fields hs)]

end Pieces
end FieldTags
