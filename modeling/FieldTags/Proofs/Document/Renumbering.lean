import FieldTags.Proofs.Document.Counting
import FieldTags.Proofs.Document.Settle
import FieldTags.Proofs.Document.Stages
import Mathlib

/-! Renumbering a document in place, inner blocks first, is one simultaneous substitution in the
text before it. -/
namespace FieldTags

/-- Every block's body can be cut out of the text: no character lies across its opening brace. -/
def BodiesStart (t : Bytes) : Prop :=
  ∀ b ∈ messageBlocks t, t.isBoundary b.bodyStart = true

theorem bodiesStart_of_isValid {t : Bytes} (hv : Utf8.isValid t = true) : BodiesStart t :=
  fun _ hb => Utf8.isBoundary_succ_of_ascii hv (getElem?_lbrace hb) (by decide)

/-- What a pass leaves behind and what it counts, block by block. -/
structure Settled (blocks : List Block) (counts : Block → Nat) (text : Bytes) (o : Outcome) :
    Prop where
  text : o.text = text
  fields : o.steps.map Step.fields = (blocks.map counts).map .ofNat
  handled : ∀ s ∈ o.steps, s.body?.isSome = true

namespace Pieces

theorem slice?_text {ps : Pieces} {b : Block} (hb : b ∈ messageBlocks (shape ps))
    (hstart : BodiesStart (shape ps)) :
    (text ps).slice? (b.move (offset ps)).bodyStart (b.move (offset ps)).rbrace =
      some (text (ps.body b)) := by
  obtain ⟨hr, hlt⟩ := getElem?_rbrace hb
  have hstop : (shape ps).isBoundary b.rbrace = true := by
    simp only [Bytes.isBoundary, hr, Option.map_some, Option.getD_some]
    rw [Utf8.not_isContinuation_of_ascii (by decide)]
    simp
  have hle : offset ps b.bodyStart ≤ offset ps b.rbrace := offset_le ps hlt
  have hbody := bodyOf_text hb
  rw [bodyOf, offset_bodyStart hb] at hbody
  rw [offset_bodyStart hb, Bytes.slice?, isBoundary_text, hstart b hb]
  simp only [Block.move, isBoundary_text, hstop, hle, and_self, if_true]
  exact congrArg some hbody

/-- At the stage the text is that of the pieces `qs`, and the blocks `todo`, which are still to come,
have moved as the numbers of these did. In the text before the pass a block `b` was `φ b`. -/
structure InPlace (φ : Block → Block) (qs : Pieces) (todo : List Block) (g : Stage Unit) : Prop where
  text : g.text = text qs
  place : ∀ b ∈ todo, g.place (φ b) = b.move (offset qs)

section
variable {φ : Block → Block} {qs : Pieces} {b : Block} {todo : List Block} {g : Stage Unit}

theorem InPlace.slice? (h : InPlace φ qs (b :: todo) g) (hstart : BodiesStart (shape qs))
    (hb : b ∈ messageBlocks (shape qs)) :
    g.text.slice? (g.place (φ b)).bodyStart (g.place (φ b)).rbrace = some (Pieces.text (qs.body b)) := by
  rw [h.text, h.place b List.mem_cons_self]
  exact slice?_text hb hstart

theorem InPlace.step (h : InPlace φ qs (b :: todo) g) (hstart : BodiesStart (shape qs))
    (hb : b ∈ messageBlocks (shape qs)) :
    g.step (.pure renumber) (φ b) = .handled (b.move (offset qs)) (Pieces.text (qs.body b))
      (renumber (Pieces.text (qs.body b))) := by
  rw [Stage.step, h.slice? hstart hb, h.place b List.mem_cons_self]
  rfl

theorem InPlace.next (h : InPlace φ qs (b :: todo) g) (hs : Separated (shape qs))
    (hstart : BodiesStart (shape qs)) (hmem : ∀ c ∈ b :: todo, c ∈ messageBlocks (shape qs))
    (hdesc : (b :: todo).Pairwise fun b c => c.lbrace < b.lbrace) :
    InPlace φ (qs.settle b) todo (g.next .tracked (.pure renumber) (φ b)) := by
  obtain ⟨hb, htodo⟩ := List.forall_mem_cons.mp hmem
  have hlt := (List.pairwise_cons.mp hdesc).1
  have hplace := h.place b List.mem_cons_self
  rw [Stage.next, h.slice? hstart hb, hplace]
  refine ⟨?_, fun c hc => ?_⟩
  · rw [text_settle hs hb, ← h.text]
    rfl
  · have hc' := h.place c (List.mem_cons_of_mem b hc)
    change (b.move (offset qs)).follow _ _ (g.place (φ c)) = _
    rw [hc']
    exact follow_settle hs hb (htodo c hc) (hlt c hc)

end

/-- The run of a pass over the pieces of a text: the blocks that are left, the outer ones last,
write over its numbers, and a number that several blocks claim ends with the last of them. -/
theorem pass_text {s : Bytes} (hs : Separated s) (hstart : BodiesStart s) {φ : Block → Block}
    {qs : Pieces} (hqs : shape qs = s) {todo : List Block} (hmem : ∀ b ∈ todo, b ∈ messageBlocks s)
    (hdesc : todo.Pairwise fun b c => c.lbrace < b.lbrace) {g : Stage Unit}
    (h : InPlace φ qs todo g) :
    Settled todo (fun b => (fields (bodyOf s b)).length)
      (text (overwrite (todo.reverse.flatMap (ownClaims s)) qs))
      (g.pass .tracked (.pure renumber) (todo.map φ)) := by
  induction todo generalizing qs g with
  | nil =>
    refine ⟨?_, rfl, nofun⟩
    exact h.text.trans (congrArg text (overwriteFrom_of_outside (by simp)).symm)
  | cons b todo ih =>
    subst hqs
    have hb := hmem b (by simp)
    have hlater := ih (shape_settle qs b) (fun c hc => hmem c (by simp [hc]))
      (List.pairwise_cons.mp hdesc).2 (h.next hs hstart hmem hdesc)
    have hnumber : ∀ e ∈ todo.reverse.flatMap (ownClaims (shape qs)), e.text.IsNumber := by
      intro e he
      obtain ⟨c, hc, he⟩ := List.mem_flatMap.mp he
      exact (retags_ownClaims hs c e he).2.2
    have hcount : (fields (text (qs.body b))).length = (fields (bodyOf (shape qs) b)).length := by
      rw [(fields_text _).length_eq, shape_body]
    rw [List.map_cons, Stage.pass_cons, h.step hstart hb]
    refine ⟨?_, ?_, ?_⟩
    · rw [hlater.text, settle, overwrite_overwrite hnumber, List.reverse_cons, List.flatMap_append]
      simp
    · rw [List.map_cons, List.map_cons, List.map_cons, hlater.fields]
      exact congrArg (UInt64.ofNat · :: _) hcount
    · intro s hs
      cases List.mem_cons.mp hs with
      | inl heq =>
        rw [heq]
        rfl
      | inr hin => exact hlater.handled s hin

theorem bodiesStart_shape {ps : Pieces} (h : BodiesStart (text ps)) : BodiesStart (shape ps) := by
  intro b hb
  have hmove : b.move (offset ps) ∈ messageBlocks (text ps) := by
    rw [messageBlocks_text]
    exact List.mem_map_of_mem hb
  have hbound := h _ hmove
  rwa [offset_bodyStart hb, isBoundary_text] at hbound

theorem exists_text_eq {t : Bytes} (hstart : BodiesStart t) :
    ∃ ps, text ps = t ∧ Separated (shape ps) ∧ BodiesStart (shape ps) := by
  obtain ⟨ps, rfl, hs⟩ := exists_separated t
  exact ⟨ps, rfl, hs, bodiesStart_shape hstart⟩

theorem inPlace_first (ps : Pieces) (todo : List Block) :
    InPlace (Block.move (offset ps)) ps todo ⟨id, (), text ps⟩ :=
  ⟨rfl, fun _ _ => rfl⟩

theorem renumberDocument_text {ps : Pieces} (hs : Separated (shape ps))
    (hstart : BodiesStart (shape ps)) :
    Settled (messageBlocks (shape ps)).reverse
      (fun b => (fields (bodyOf (shape ps) b)).length)
      (text (overwrite (claims (shape ps)) ps)) (renumberDocument .tracked (text ps)) := by
  have h := pass_text hs hstart rfl (fun b hb => List.mem_reverse.mp hb)
    (pairwise_reverse_messageBlocks _) (inPlace_first ps _)
  rw [List.reverse_reverse, List.map_reverse, ← messageBlocks_text] at h
  exact h

end Pieces

namespace Outcome

theorem messages_of_settled {o : Outcome} {blocks : List Block} {counts : Block → Nat} {t : Bytes}
    (h : Settled blocks counts t o) : o.messages = blocks.length := by
  have := congrArg List.length h.fields
  simpa [messages] using this

theorem fields_of_settled {o : Outcome} {blocks : List Block} {counts : Block → Nat} {t : Bytes}
    (h : Settled blocks counts t o) : o.fields = .ofNat (blocks.map counts).sum := by
  rw [fields_eq_sum, h.fields, sum_map_ofNat]

theorem skipped_of_settled {o : Outcome} {blocks : List Block} {counts : Block → Nat} {t : Bytes}
    (h : Settled blocks counts t o) : o.skipped = 0 := by
  rw [skipped, List.countP_eq_zero]
  intro s hs
  have := h.handled s hs
  simp [Option.isSome_iff_ne_none.mp this]

end Outcome

open Pieces in
theorem renumberDocument_settled {t : Bytes} (hstart : BodiesStart t) :
    Settled (messageBlocks t).reverse (fun b => (fields (bodyOf t b)).length)
      (Edit.substitute (claims t) t) (renumberDocument .tracked t) := by
  obtain ⟨ps, rfl, hs, hbodies⟩ := exists_text_eq hstart
  have hsettled := renumberDocument_text hs hbodies
  have hcounts : (messageBlocks (text ps)).reverse.map
        (fun b => (fields (bodyOf (text ps) b)).length) =
      (messageBlocks (shape ps)).reverse.map fun b => (fields (bodyOf (shape ps) b)).length := by
    rw [messageBlocks_text, ← List.map_reverse, List.map_map]
    refine List.map_congr_left fun b hb => ?_
    rw [Function.comp_apply, bodyOf_text (List.mem_reverse.mp hb), (fields_text _).length_eq,
      shape_body]
  refine ⟨?_, ?_, hsettled.handled⟩
  · rw [hsettled.text, claims_text, substitute_text (retags_claims hs)]
  · rw [hsettled.fields, hcounts]

/-- Renumbering a document gives every claimed tag its new number at once: no two claims overlap
unless they are for the same tag, and a tag that several blocks claim takes the number that the
block with the first opening brace gives it. No block is skipped. The fields counted are those of all
messages, and no more than the text has bytes, so that the count is exact below `2 ^ 64` bytes. -/
theorem renumberDocument_eq_substitute {t : Bytes} (hv : Utf8.isValid t = true) :
    (∀ e ∈ claims t, ∀ f ∈ claims t,
      (e.start = f.start ∧ e.stop = f.stop) ∨ e.stop ≤ f.start ∨ f.stop ≤ e.start) ∧
    (renumberDocument .tracked t).text = Edit.substitute (claims t) t ∧
    (renumberDocument .tracked t).fields = .ofNat (fieldTotal t) ∧ fieldTotal t ≤ t.length ∧
    (renumberDocument .tracked t).messages = (messageBlocks t).length ∧
    (renumberDocument .tracked t).skipped = 0 := by
  have hsettled := renumberDocument_settled (bodiesStart_of_isValid hv)
  refine ⟨fun e he f hf => claims_same_or_apart he hf, hsettled.text, ?_, fieldTotal_le t, ?_, ?_⟩
  · rw [Outcome.fields_of_settled hsettled, List.map_reverse, List.sum_reverse, fieldTotal]
  · rw [Outcome.messages_of_settled hsettled, List.length_reverse]
  · exact Outcome.skipped_of_settled hsettled

theorem renumberDocument_eq_substitute_nested :
    let t := Ascii.word "message A { message B { b x = 7; } b y = 30; b z = 2; }"
    claims t = [⟨41, 43, Ascii.word "1"⟩, ⟨51, 52, Ascii.word "2"⟩, ⟨30, 31, Ascii.word "1"⟩] ∧
      (renumberDocument .tracked t).text = Edit.substitute (claims t) t ∧
      (renumberDocument .tracked t).fields = 3 := by
  intro t
  obtain ⟨-, htext, hfields, -⟩ := renumberDocument_eq_substitute (t := t) (by decide +kernel)
  exact ⟨by decide +kernel, htext, hfields.trans (by decide +kernel)⟩

end FieldTags
