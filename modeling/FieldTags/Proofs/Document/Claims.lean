import FieldTags.Proofs.Message.Nesting
import FieldTags.Proofs.Shape.Field

/-! The tags that the message blocks of a text claim, each block on its own and read off the text
before any renumbering. -/
namespace FieldTags

def bodyOf (t : Bytes) (b : Block) : Bytes := t.between b.bodyStart b.rbrace

/-- What a block asks for: the tag of its first direct field becomes 1, that of the next one 2, and so
on. The ranges are places of the whole text. -/
def ownClaims (t : Bytes) (b : Block) : List Edit :=
  (fields (bodyOf t b)).mapIdx fun i f =>
    ⟨b.bodyStart + f.tagStart, b.bodyStart + f.tagStop, Ascii.decimal (i + 1)⟩

/-- The claims of all blocks, those of blocks that open earlier first. -/
def claims (t : Bytes) : List Edit := (messageBlocks t).flatMap (ownClaims t)

theorem ownClaims_eq_retag (t : Bytes) (b : Block) :
    ownClaims t b = (retag (fields (bodyOf t b))).map (Edit.shift b.bodyStart) := by
  refine List.ext_getElem? fun i => ?_
  rw [retag_eq_mapIdx, ownClaims, List.getElem?_mapIdx, List.getElem?_map, List.getElem?_mapIdx,
    Option.map_map]
  rfl

theorem mem_ownClaims {t : Bytes} {b : Block} {e : Edit} :
    e ∈ ownClaims t b ↔ ∃ own ∈ retag (fields (bodyOf t b)), own.shift b.bodyStart = e := by
  rw [ownClaims_eq_retag, List.mem_map]

theorem shift_mem_ownClaims {t : Bytes} {b : Block} {e : Edit}
    (he : e ∈ retag (fields (bodyOf t b))) : e.shift b.bodyStart ∈ ownClaims t b :=
  mem_ownClaims.mpr ⟨e, he, rfl⟩

theorem length_bodyOf {t : Bytes} {b : Block} (hb : b ∈ messageBlocks t) :
    (bodyOf t b).length = b.rbrace - b.bodyStart := by
  have hlen := (List.getElem?_eq_some_iff.mp (getElem?_rbrace hb).1).1
  rw [bodyOf, Bytes.between, List.length_drop, List.length_take, Nat.min_eq_left (by omega)]

theorem getElem?_bodyOf {t : Bytes} {b : Block} {i : Nat} {c : UInt8}
    (h : (bodyOf t b)[i]? = some c) : t[b.bodyStart + i]? = some c := by
  rw [bodyOf, Bytes.between, List.getElem?_drop, List.getElem?_take] at h
  split at h
  · exact h
  · simp at h

theorem ownClaims_inside {t : Bytes} {b : Block} (hb : b ∈ messageBlocks t) {e : Edit}
    (he : e ∈ ownClaims t b) : b.bodyStart ≤ e.start ∧ e.start < e.stop ∧ e.stop < b.rbrace := by
  obtain ⟨own, hown, rfl⟩ := mem_ownClaims.mp he
  obtain ⟨⟨f, hf, hstart, hstop⟩, -⟩ := mem_retag hown
  obtain ⟨-, hlt, hend, hsemi⟩ := Field.tag_of_mem hf
  have hlen := (List.getElem?_eq_some_iff.mp hsemi).1
  rw [length_bodyOf hb] at hlen
  simp only [Edit.shift]
  omega

theorem isNumber_of_mem_claims {t : Bytes} {e : Edit} (he : e ∈ claims t) : e.text.IsNumber := by
  obtain ⟨b, -, he⟩ := List.mem_flatMap.mp he
  obtain ⟨own, hown, rfl⟩ := mem_ownClaims.mp he
  exact (mem_retag hown).2

namespace Pieces

theorem offset_bodyStart {ps : Pieces} {b : Block} (hb : b ∈ messageBlocks (shape ps)) :
    (b.move (offset ps)).bodyStart = offset ps b.bodyStart :=
  (offset_succ_of_getElem? (by decide) (getElem?_lbrace hb)).symm

def body (ps : Pieces) (b : Block) : Pieces := ps.between b.bodyStart b.rbrace

theorem shape_body (ps : Pieces) (b : Block) : shape (ps.body b) = bodyOf (shape ps) b :=
  shape_between ps b.bodyStart b.rbrace

theorem bodyOf_text {ps : Pieces} {b : Block} (hb : b ∈ messageBlocks (shape ps)) :
    bodyOf (text ps) (b.move (offset ps)) = text (ps.body b) := by
  rw [bodyOf, offset_bodyStart hb]
  exact between_offset ps b.bodyStart b.rbrace

theorem separated_body {ps : Pieces} (hs : Separated (shape ps)) (b : Block) :
    Separated (bodyOf (shape ps) b) :=
  hs.between b.bodyStart b.rbrace

theorem ownClaims_text {ps : Pieces} {b : Block} (hb : b ∈ messageBlocks (shape ps)) :
    ownClaims (text ps) (b.move (offset ps)) =
      (ownClaims (shape ps) b).map (Edit.move (offset ps)) := by
  rw [ownClaims_eq_retag, ownClaims_eq_retag, bodyOf_text hb, retag_text, shape_body, offset_bodyStart hb,
    List.map_map, List.map_map]
  refine List.map_congr_left fun e he => ?_
  have hin := ownClaims_inside hb (shift_mem_ownClaims he)
  simp only [Edit.shift] at hin
  have hmove : ∀ k, b.bodyStart + k ≤ b.rbrace →
      offset ps b.bodyStart + offset (ps.body b) k = offset ps (b.bodyStart + k) := by
    intro k hk
    rw [body, between, ← offset_take ps hk, offset_add, offset_take ps (by omega)]
  simp only [Function.comp_apply, Edit.shift, Edit.move]
  rw [hmove e.start (by omega), hmove e.stop (by omega)]

theorem claims_text (ps : Pieces) :
    claims (text ps) = (claims (shape ps)).map (Edit.move (offset ps)) := by
  rw [claims, claims, messageBlocks_text, List.flatMap_map, List.map_flatMap]
  exact List.flatMap_congr fun b hb => ownClaims_text hb

theorem retags_ownClaims {t : Bytes} (ht : Separated t) (b : Block) :
    Retags t (ownClaims t b) := by
  intro e he
  obtain ⟨own, hown, rfl⟩ := mem_ownClaims.mp he
  obtain ⟨hone, ⟨c, hc, hdigit⟩, htext⟩ := retags_fields (ht.between b.bodyStart b.rbrace) own hown
  refine ⟨?_, ⟨c, getElem?_bodyOf hc, hdigit⟩, htext⟩
  simp only [Edit.shift]
  omega

theorem retags_claims {t : Bytes} (ht : Separated t) : Retags t (claims t) := by
  intro e he
  obtain ⟨b, -, he⟩ := List.mem_flatMap.mp he
  exact retags_ownClaims ht b e he

end Pieces

theorem claims_same_or_apart {t : Bytes} {e f : Edit} (he : e ∈ claims t) (hf : f ∈ claims t) :
    (e.start = f.start ∧ e.stop = f.stop) ∨ e.stop ≤ f.start ∨ f.stop ≤ e.start := by
  obtain ⟨ps, rfl, hs⟩ := Pieces.exists_separated t
  rw [Pieces.claims_text] at he hf
  obtain ⟨d, hd, rfl⟩ := List.mem_map.mp he
  obtain ⟨g, hg, rfl⟩ := List.mem_map.mp hf
  obtain ⟨hdstop, -, -⟩ := Pieces.retags_claims hs d hd
  obtain ⟨hgstop, -, -⟩ := Pieces.retags_claims hs g hg
  simp only [Edit.move, hdstop, hgstop, Pieces.offset_le_iff]
  rcases Nat.lt_trichotomy d.start g.start with hlt | heq | hgt
  · exact Or.inr (Or.inl hlt)
  · rw [heq]
    exact Or.inl ⟨rfl, rfl⟩
  · exact Or.inr (Or.inr hgt)

end FieldTags
