import FieldTags.Document.Pass
import FieldTags.Proofs.Document.Claims

/-! A pass handles one block after another. On the pieces of a text each block writes over numbers
and nothing moves; on the text the braces behind it move as the pass tracks them. -/
namespace FieldTags
namespace Pieces

theorem isBoundary_text (ps : Pieces) (k : Nat) :
    (text ps).isBoundary (offset ps k) = (shape ps).isBoundary k := by
  have hzero : (offset ps k == 0) = (k == 0) := by
    rw [Bool.eq_iff_iff, beq_iff_eq, beq_iff_eq]
    have : 0 < offset ps k ↔ 0 < k := offset_pos_iff
    omega
  have hend : (offset ps k == (text ps).length) = (k == (shape ps).length) := by
    rw [length_text, length_shape, Bool.eq_iff_iff, beq_iff_eq, beq_iff_eq]
    exact ⟨offset_inj, congrArg (offset ps)⟩
  have hbyte : ((text ps)[offset ps k]?.map (! Utf8.isContinuation ·)) =
      ((shape ps)[k]?.map (! Utf8.isContinuation ·)) := by
    rw [← Nat.add_zero (offset ps k), ← List.getElem?_drop, drop_offset, ← Nat.add_zero k,
      ← List.getElem?_drop, ← shape_drop, Nat.add_zero]
    cases ps.drop k with
    | nil => rfl
    | cons p rest =>
      cases p with
      | plain b h => rfl
      | number n =>
        obtain ⟨b, t, hbt⟩ := List.exists_cons_of_ne_nil n.nonempty
        have hb := Utf8.not_isContinuation_of_ascii
          (ascii_of_isDigit (n.isDigit b (by simp [hbt])))
        have hz := Utf8.not_isContinuation_of_ascii (ascii_of_isDigit Piece.isDigit_zero)
        simp [Piece.text, Piece.mark, hbt, hb, hz]
  rw [Bytes.isBoundary, Bytes.isBoundary, hzero, hend, hbyte]

theorem offset_replace {ps mid : Pieces} {i j k : Nat} (hij : i ≤ j) (hj : j ≤ ps.length)
    (hmid : mid.length = j - i) (hk : j ≤ k) :
    offset (ps.take i ++ mid ++ ps.drop j) k + (text (ps.between i j)).length =
      offset ps k + (text mid).length := by
  have hlen : (text (ps.between i j)).length = offset (ps.between i j) (j - i) := by
    rw [length_text]
    congr 1
    rw [between, List.length_drop, List.length_take, Nat.min_eq_left hj]
  have hold : offset ps k =
      offset ps i + offset (ps.between i j) (j - i) + offset (ps.drop j) (k - j) := by
    rw [between, ← offset_take ps hij, ← offset_add, Nat.add_sub_cancel' hij,
      offset_take ps (Nat.le_refl j), ← offset_add, Nat.add_sub_cancel' hk]
  have hnew : offset (ps.take i ++ mid ++ ps.drop j) k =
      offset ps i + (text mid).length + offset (ps.drop j) (k - j) := by
    have hfront : (ps.take i ++ mid).length = j := by
      rw [List.length_append, List.length_take, hmid, Nat.min_eq_left (by omega)]
      omega
    have hi : (ps.take i).length = i := List.length_take_of_le (by omega)
    rw [← Nat.add_sub_cancel' hk, offset_add, ← hfront, List.drop_left,
      offset_append_left (Nat.le_refl _), ← length_text, text_append, List.length_append,
      length_text, hi, offset_take ps (Nat.le_refl i), Nat.add_sub_cancel_left]
  omega

/-- The pieces of a text after a block has renumbered its direct fields. -/
def settle (ps : Pieces) (b : Block) : Pieces := overwrite (ownClaims (shape ps) b) ps

@[simp] theorem shape_settle (ps : Pieces) (b : Block) : shape (ps.settle b) = shape ps :=
  shape_overwrite _ ps

section
variable {ps : Pieces} {b : Block}

theorem body_bounds (hb : b ∈ messageBlocks (shape ps)) :
    b.bodyStart ≤ b.rbrace ∧ b.rbrace ≤ ps.length := by
  obtain ⟨hr, hlt⟩ := getElem?_rbrace hb
  have hlen := (List.getElem?_eq_some_iff.mp hr).1
  rw [length_shape] at hlen
  exact ⟨hlt, Nat.le_of_lt hlen⟩

theorem settle_eq (hb : b ∈ messageBlocks (shape ps)) :
    ps.settle b = ps.take b.bodyStart ++
      overwrite (retag (fields (bodyOf (shape ps) b))) (ps.body b) ++ ps.drop b.rbrace := by
  obtain ⟨hij, hj⟩ := body_bounds hb
  rw [settle, ownClaims_eq_retag]
  refine overwrite_shift hij hj fun e he => ?_
  have hin := ownClaims_inside hb (shift_mem_ownClaims he)
  simp only [Edit.shift] at hin
  omega

theorem text_settle (hs : Separated (shape ps)) (hb : b ∈ messageBlocks (shape ps)) :
    text (ps.settle b) = (text ps).splice (b.move (offset ps)).bodyStart
      (b.move (offset ps)).rbrace (renumberBody (text (ps.body b))) := by
  have hsep : Separated (shape (ps.body b)) := by
    rw [shape_body]
    exact separated_body hs b
  rw [settle_eq hb, text_append, text_append, renumberBody_text hsep, shape_body,
    offset_bodyStart hb, Bytes.splice, take_offset]
  congr 1
  exact (drop_offset ps b.rbrace).symm

theorem offset_settle (hb : b ∈ messageBlocks (shape ps)) {k : Nat} (hk : k ≤ b.bodyStart) :
    offset (ps.settle b) k = offset ps k := by
  obtain ⟨hij, hj⟩ := body_bounds hb
  have hlen : k ≤ (ps.take b.bodyStart).length := by
    rw [List.length_take_of_le (by omega)]
    exact hk
  rw [settle_eq hb, List.append_assoc, offset_append_left hlen, offset_take ps hk]

theorem follow_settle (hs : Separated (shape ps)) (hb : b ∈ messageBlocks (shape ps)) {c : Block}
    (hc : c ∈ messageBlocks (shape ps)) (hlt : c.lbrace < b.lbrace) :
    (b.move (offset ps)).follow (text (ps.body b)).length
        (renumberBody (text (ps.body b))).length (c.move (offset ps)) =
      c.move (offset (ps.settle b)) := by
  obtain ⟨hij, hj⟩ := body_bounds hb
  have hsep : Separated (shape (ps.body b)) := by
    rw [shape_body]
    exact separated_body hs b
  have hstart : b.bodyStart = b.lbrace + 1 := rfl
  have hmid : (overwrite (retag (fields (bodyOf (shape ps) b))) (ps.body b)).length =
      b.rbrace - b.bodyStart := by
    rw [← length_shape, shape_overwrite, shape_body, length_bodyOf hb]
  have hleft := offset_settle hb (k := c.lbrace) (by omega)
  have hrb := (getElem?_rbrace hb).2
  simp only [Block.follow, Block.move, offset_lt_iff, hleft]
  rcases nested_or_apart hc hb hlt with hin | hout
  · have hshift := offset_replace hij hj hmid (Nat.le_of_lt hin)
    rw [← settle_eq hb] at hshift
    change offset (ps.settle b) c.rbrace + (text (ps.body b)).length = _ at hshift
    rw [if_pos hin, renumberBody_text hsep, shape_body]
    congr 1
    omega
  · rw [if_neg (by omega), offset_settle hb (by omega)]

end

end Pieces
end FieldTags
