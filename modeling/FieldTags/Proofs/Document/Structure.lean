import FieldTags.Proofs.Document.Retagging
import FieldTags.Proofs.Field.Reading
import FieldTags.Proofs.Shape.Spelling

/-! What renumbering keeps of a document, with tracked and with fixed offsets. The text keeps its shape,
so the events, the messages and how they nest, and the fields of each message stay. A tag stands behind
an equals sign, so no number in the name of a field is one. -/
namespace FieldTags
open Declaration

def Field.heading (f : Field) : Option Bytes × Bytes := (f.declaration.label, f.declaration.name)

def headings (t : Bytes) : List (List (Option Bytes × Bytes)) :=
  (messageBlocks t).map fun b => (fields (bodyOf t b)).map Field.heading

theorem TagPlace.exists_front {t : Bytes} {start stop : Nat} (h : TagPlace t start stop) :
    ∃ k c, start = k + 1 ∧ t[k]? = some c ∧ (c = Ascii.equals ∨ Ascii.isGap c = true) := by
  obtain ⟨gap, hgap, front, hfront⟩ := h.before
  have hlen := congrArg List.length hfront
  have hle := Nat.le_of_lt (Nat.lt_trans h.start_lt_stop h.stop_lt)
  rw [List.length_take_of_le hle, List.length_append, List.length_cons] at hlen
  have hlast : (t.take start)[start - 1]? = (Ascii.equals :: gap).getLast? := by
    rw [← List.getLast?_append_cons front, hfront, List.getLast?_eq_getElem?,
      List.length_take_of_le hle]
  rw [List.getElem?_take_of_lt (by omega)] at hlast
  obtain ⟨c, hc⟩ : ∃ c, (Ascii.equals :: gap).getLast? = some c :=
    Option.isSome_iff_exists.mp (by simp)
  refine ⟨start - 1, c, by omega, by rw [hlast, hc], ?_⟩
  exact (List.mem_cons.mp (List.mem_of_getLast? hc)).imp id (hgap c)

namespace Field
variable {t : Bytes} {g : Field} {k : Nat} {c : UInt8}

theorem isTypeChar_of_inName (h : g.InName t k) (hc : t[k]? = some c) (ha : c < 0x80) :
    Bytes.holdsOf isTypeChar c = true := by
  obtain ⟨o, -, hlow, hhigh⟩ := h
  rw [Opening.nameStop] at hhigh
  generalize o.nameStart (t.drop g.start) = start at hlow hhigh
  rw [List.drop_drop] at hhigh
  refine isTypeChar_of_lt_nameLength (t := t.drop (g.start + start)) (k := k - (g.start + start))
    (by omega) ?_ ha
  rw [List.getElem?_drop, Nat.add_sub_cancel' hlow, hc]

theorem inName_of_isDigit (h : g.InName t (k + 1)) (hc : t[k + 1]? = some c)
    (hdigit : Ascii.isDigit c = true) : g.InName t k := by
  obtain ⟨o, ho, hlow, hhigh⟩ := h
  refine ⟨o, ho, ?_, by omega⟩
  rw [Opening.nameStop] at hhigh
  generalize o.nameStart (t.drop g.start) = start at hlow hhigh ⊢
  rcases Nat.lt_or_eq_of_le hlow with hlt | heq
  · omega
  · rw [List.drop_drop] at hhigh
    obtain ⟨b, hb, hstart⟩ := isNameStart_of_nameLength_pos (t := t.drop (g.start + start))
      (by omega)
    rw [List.getElem?_drop, Nat.add_zero, heq, hc, Option.some.injEq] at hb
    rw [← hb, Pieces.isNameStart_of_isDigit hdigit] at hstart
    simp at hstart

end Field

theorem not_tagPlace_of_inName {t : Bytes} {b : Block} {g : Field} {k stop : Nat}
    (hg : g ∈ fields (bodyOf t b)) (hk : g.InName (bodyOf t b) k) :
    ¬ TagPlace t (b.bodyStart + k) stop := by
  intro hplace
  obtain ⟨hafter, hbound⟩ := Field.inName_bounds hg hk
  obtain ⟨k, rfl⟩ : ∃ j, k = j + 1 := ⟨k - 1, by omega⟩
  have hin : k + 1 < (bodyOf t b).length := by
    obtain ⟨-, hlt, hend, hsemi⟩ := Field.tag_of_mem hg
    have hlen := (List.getElem?_eq_some_iff.mp hsemi).1
    omega
  have hbody : ∀ j ≤ k + 1, t[b.bodyStart + j]? = (bodyOf t b)[j]? := by
    intro j hj
    have hget := List.getElem?_eq_getElem (Nat.lt_of_le_of_lt hj hin)
    rw [hget, getElem?_bodyOf hget]
  obtain ⟨d, hd, hdigit⟩ := hplace.getElem?_start
  obtain ⟨i, c, hi, hc, hclass⟩ := hplace.exists_front
  obtain rfl : i = b.bodyStart + k := by omega
  rw [hbody _ (Nat.le_refl _)] at hd
  rw [hbody _ (Nat.le_succ k)] at hc
  have hbefore := Field.inName_of_isDigit hk hd hdigit
  rcases hclass with rfl | hgap
  · exact absurd (Field.isTypeChar_of_inName hbefore hc (by decide)) (by decide)
  · obtain ⟨ha, htype, -⟩ := isTypeChar_of_isGap hgap
    rw [Field.isTypeChar_of_inName hbefore hc ha] at htype
    simp at htype

namespace Pieces
variable {ps qs : Pieces}

theorem kinds_text (ps : Pieces) :
    (events (text ps)).map (·.kind) = (events (shape ps)).map (·.kind) := by
  have hmove : events (text ps) = (events (shape ps)).map (Event.move (offset ps)) :=
    eventsFrom_text .code ps
  rw [hmove, List.map_map]
  rfl

theorem contains_text (ps : Pieces) :
    (messageBlocks (text ps)).map (fun b => (messageBlocks (text ps)).map b.contains) =
      (messageBlocks (shape ps)).map fun b => (messageBlocks (shape ps)).map b.contains := by
  rw [messageBlocks_text, List.map_map]
  refine List.map_congr_left fun b _ => ?_
  rw [Function.comp_apply, List.map_map]
  refine List.map_congr_left fun c _ => ?_
  simp [Block.contains, Block.move]

theorem headings_text (ps : Pieces) :
    headings (text ps) =
      (messageBlocks (shape ps)).map fun b => (fields (text (ps.body b))).map Field.heading := by
  rw [headings, messageBlocks_text, List.map_map]
  refine List.map_congr_left fun b hb => ?_
  rw [Function.comp_apply, bodyOf_text hb]

theorem getElem?_body_of_retagged (h : Retagged ps qs) {b : Block} {g : Field} {k : Nat}
    (hg : g ∈ fields (shape (ps.body b))) (hk : g.InName (shape (ps.body b)) k) :
    (qs.body b)[k]? = (ps.body b)[k]? := by
  rw [body, body, getElem?_between, getElem?_between]
  split
  · cases h.pieces (b.bodyStart + k) with
    | inl hsame => exact hsame
    | inr hnew =>
      rw [shape_body] at hg hk
      exact absurd hnew.1 (not_tagPlace_of_inName hg hk)
  · rfl

theorem headings_of_retagged (h : Retagged ps qs) : headings (text qs) = headings (text ps) := by
  rw [headings_text, headings_text, h.shape]
  refine List.map_congr_left fun b _ => ?_
  have hshape : shape (qs.body b) = shape (ps.body b) := by
    rw [shape_body, shape_body, h.shape]
  refine map_eq_of_forall₂ ((fields_twins hshape).imp fun f e => ?_)
  rintro ⟨g, hg⟩
  have hname := hg.name_eq fun k hk => getElem?_body_of_retagged h hg.mem hk
  rw [Field.heading, Field.heading, hg.label_eq, hname]

end Pieces

open Pieces in
/-- Renumbering a document keeps the kinds of its events and the mode at its end, the messages and
which of them encloses which, and for each message its fields with their labels and names. -/
theorem renumberDocument_structure (offsets : Offsets) (t : Bytes) :
    let out := (renumberDocument offsets t).text
    (events out).map (·.kind) = (events t).map (·.kind) ∧
    Mode.run .code out = Mode.run .code t ∧
    (messageBlocks out).length = (messageBlocks t).length ∧
    (messageBlocks out).map (fun b => (messageBlocks out).map b.contains) =
      (messageBlocks t).map (fun b => (messageBlocks t).map b.contains) ∧
    headings out = headings t := by
  intro out
  have hretagged : (ofText t).Retagged (ofText out) := retagged_passFrom offsets id t _
  have ht := text_ofText t
  have hout := text_ofText out
  generalize ofText t = ps at ht hretagged
  generalize ofText out = qs at hout hretagged
  rw [← ht, ← hout]
  refine ⟨?_, ?_, ?_, ?_, headings_of_retagged hretagged⟩
  · rw [kinds_text, kinds_text, hretagged.shape]
  · rw [run_mode_text, run_mode_text, hretagged.shape]
  · rw [messageBlocks_text, messageBlocks_text, List.length_map, List.length_map, hretagged.shape]
  · rw [contains_text, contains_text, hretagged.shape]

end FieldTags
