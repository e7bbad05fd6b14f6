import FieldTags.Proofs.Document.Renumbering

/-! Tracked offsets are those that a new search of the text would find. A block that is renumbered leaves
the shape of the text, and so its blocks, as they were up to the places of their braces. -/
namespace FieldTags

/-- Renumbers the first `i` messages of a text, the last one of them first, and searches the text again
before each. -/
def renumberAfresh : Nat → Bytes → Outcome
  | 0, t => ⟨t, []⟩
  | i + 1, t =>
    match (messageBlocks t)[i]? with
    | none => renumberAfresh i t
    | some b =>
      let body := bodyOf t b
      let later := renumberAfresh i (t.splice b.bodyStart b.rbrace (renumberBody body))
      ⟨later.text, .handled b body (renumber body) :: later.steps⟩

namespace Pieces

section
variable {s : Bytes} {φ : Block → Block} {qs : Pieces} {g : Stage Unit}

theorem exists_inPlace (hs : Separated s) (hstart : BodiesStart s) {done todo : List Block}
    (hmem : ∀ b ∈ done ++ todo, b ∈ messageBlocks s)
    (hdesc : (done ++ todo).Pairwise fun b c => c.lbrace < b.lbrace) (hqs : shape qs = s)
    (h : InPlace φ qs (done ++ todo) g) :
    ∃ ps, shape ps = s ∧
      InPlace φ ps todo ((done.map φ).foldl (Stage.next .tracked (.pure renumber)) g) := by
  induction done generalizing qs g with
  | nil => exact ⟨qs, hqs, h⟩
  | cons b done ih =>
    subst hqs
    exact ih (fun c hc => hmem c (List.mem_cons_of_mem b hc)) (List.pairwise_cons.mp hdesc).2
      (shape_settle qs b) (h.next hs hstart hmem hdesc)

/-- A pass whose blocks are in place finds each of them where a new search would. -/
theorem pass_eq_afresh (hs : Separated s) (hstart : BodiesStart s) (hqs : shape qs = s)
    {todo done : List Block} (hsplit : messageBlocks s = todo.reverse ++ done)
    (h : InPlace φ qs todo g) :
    g.pass .tracked (.pure renumber) (todo.map φ) = renumberAfresh todo.length g.text := by
  induction todo generalizing qs g done with
  | nil => rfl
  | cons b todo ih =>
    subst hqs
    have hmem : ∀ c ∈ b :: todo, c ∈ messageBlocks (shape qs) := by
      intro c hc
      rw [hsplit]
      exact List.mem_append_left _ (List.mem_reverse.mpr hc)
    have hdesc : (b :: todo).Pairwise fun b c => c.lbrace < b.lbrace := by
      have := pairwise_messageBlocks (shape qs)
      rw [hsplit] at this
      exact List.pairwise_reverse.mp (List.pairwise_append.mp this).1
    have hb := hmem b List.mem_cons_self
    have hnext := h.next hs hstart hmem hdesc
    rw [List.reverse_cons, List.append_assoc, List.singleton_append] at hsplit
    -- the number of the block among all is that of the blocks in front of it, which are still to come
    have hfound : (messageBlocks g.text)[todo.length]? = some (b.move (offset qs)) := by
      rw [h.text, messageBlocks_text, List.getElem?_map, hsplit,
        List.getElem?_append_right (by rw [List.length_reverse]), List.length_reverse, Nat.sub_self]
      rfl
    have hbody : bodyOf g.text (b.move (offset qs)) = text (qs.body b) := by
      rw [h.text]
      exact bodyOf_text hb
    have htext : g.text.splice (b.move (offset qs)).bodyStart (b.move (offset qs)).rbrace
        (renumberBody (text (qs.body b))) = (g.next .tracked (.pure renumber) (φ b)).text := by
      rw [hnext.text, text_settle hs hb, h.text]
    rw [List.map_cons, Stage.pass_cons, h.step hstart hb, ih (shape_settle qs b) hsplit hnext,
      List.length_cons, renumberAfresh, hfound]
    simp only [hbody, htext]

theorem InPlace.blocks {b : Block} {todo done : List Block}
    (hsplit : messageBlocks (shape qs) = todo.reverse ++ b :: done)
    (h : InPlace φ (qs.settle b) todo g) :
    (messageBlocks g.text).length = (messageBlocks (shape qs)).length ∧
      (messageBlocks g.text).filter (·.lbrace < (b.move (offset qs)).lbrace) =
        ((todo.map φ).map g.place).reverse := by
  have hb : b ∈ messageBlocks (shape qs) := by
    rw [hsplit]
    exact List.mem_append_right _ List.mem_cons_self
  have hstays : (b.move (offset qs)).lbrace = offset (qs.settle b) b.lbrace :=
    (offset_settle hb (Nat.le_succ b.lbrace)).symm
  have hfront : (messageBlocks (shape qs)).filter
      ((fun c => decide (c.lbrace < offset (qs.settle b) b.lbrace)) ∘
        Block.move (offset (qs.settle b))) = todo.reverse := by
    rw [← filter_messageBlocks hsplit]
    refine List.filter_congr fun c _ => ?_
    exact decide_eq_decide.mpr offset_lt_iff
  have hplace : (todo.map φ).map g.place = todo.map (Block.move (offset (qs.settle b))) := by
    rw [List.map_map]
    exact List.map_congr_left h.place
  rw [h.text, messageBlocks_text, shape_settle, List.length_map, hstays, List.filter_map, hfront,
    hplace, List.map_reverse]
  exact ⟨rfl, rfl⟩

end

section
variable {ps : Pieces} (hs : Separated (shape ps)) (hstart : BodiesStart (shape ps))
include hs hstart

theorem blocks_turn {done todo : List Block} {b : Block}
    (hsplit : (messageBlocks (shape ps)).reverse = done ++ b :: todo) :
    let before := (done.map (Block.move (offset ps))).foldl
      (Stage.next .tracked (.pure renumber)) ⟨id, (), text ps⟩
    let after := before.next .tracked (.pure renumber) (b.move (offset ps))
    (messageBlocks after.text).length = (messageBlocks (text ps)).length ∧
      (messageBlocks after.text).filter (·.lbrace < (before.place (b.move (offset ps))).lbrace) =
        ((todo.map (Block.move (offset ps))).map after.place).reverse := by
  intro before after
  have hdesc := pairwise_reverse_messageBlocks (shape ps)
  have hmem : ∀ c ∈ done ++ b :: todo, c ∈ messageBlocks (shape ps) := by
    intro c hc
    rw [← hsplit] at hc
    exact List.mem_reverse.mp hc
  rw [hsplit] at hdesc
  obtain ⟨qs, hqs, hbefore⟩ := exists_inPlace hs hstart hmem hdesc rfl (inPlace_first ps _)
  have hplace : before.place (b.move (offset ps)) = b.move (offset qs) :=
    hbefore.place b List.mem_cons_self
  have hlength : (messageBlocks (text ps)).length = (messageBlocks (shape ps)).length := by
    rw [messageBlocks_text, List.length_map]
  rw [hplace, hlength]
  have hmem' : ∀ c ∈ b :: todo, c ∈ messageBlocks (shape ps) := fun c hc =>
    hmem c (List.mem_append_right done hc)
  rw [← hqs] at hs hstart hmem' hsplit ⊢
  have hafter := hbefore.next hs hstart hmem' (List.pairwise_append.mp hdesc).2.1
  have horder : messageBlocks (shape qs) = todo.reverse ++ b :: done.reverse := by
    rw [← List.reverse_reverse (messageBlocks (shape qs)), hsplit]
    simp
  exact hafter.blocks horder

theorem renumberDocument_text_eq_afresh :
    renumberDocument .tracked (text ps) =
      renumberAfresh (messageBlocks (text ps)).length (text ps) := by
  have hsplit : messageBlocks (shape ps) = (messageBlocks (shape ps)).reverse.reverse ++ [] := by
    rw [List.reverse_reverse, List.append_nil]
  have hpass := pass_eq_afresh hs hstart rfl hsplit (inPlace_first ps _)
  rw [List.map_reverse, ← messageBlocks_text, List.length_reverse] at hpass
  rw [messageBlocks_text, List.length_map]
  exact hpass

end

end Pieces

open Pieces in
/-- When a block has had its turn, a new search of the text finds as many blocks as at the beginning, and
of these the ones in front of it are the blocks still to come, where the pass has them. So renumbering
comes to the same as searching the text again before each turn, and taking the blocks by their number. -/
theorem renumberDocument_eq_afresh {t : Bytes} (hv : Utf8.isValid t = true) :
    (∀ done b todo, (messageBlocks t).reverse = done ++ b :: todo →
      let first : Stage Unit := ⟨id, (), t⟩
      let before := done.foldl (Stage.next .tracked (.pure renumber)) first
      let after := before.next .tracked (.pure renumber) b
      let later := after.pass .tracked (.pure renumber) todo
      renumberDocument .tracked t =
        ⟨later.text, (first.pass .tracked (.pure renumber) done).steps ++
          before.step (.pure renumber) b :: later.steps⟩ ∧
      (messageBlocks after.text).length = (messageBlocks t).length ∧
      (messageBlocks after.text).filter (·.lbrace < (before.place b).lbrace) =
        (todo.map after.place).reverse ∧
      ∀ c ∈ todo, matchBrace after.text (after.place c).lbrace = .ok (after.place c).rbrace) ∧
    renumberDocument .tracked t = renumberAfresh (messageBlocks t).length t := by
  obtain ⟨ps, rfl, hs, hbodies⟩ := exists_text_eq (bodiesStart_of_isValid hv)
  refine ⟨?_, renumberDocument_text_eq_afresh hs hbodies⟩
  intro done b todo hsplit first before after later
  have hpass : renumberDocument .tracked (text ps) =
      first.pass .tracked (.pure renumber) (messageBlocks (text ps)).reverse := rfl
  rw [hsplit, Stage.pass_append, Stage.pass_cons] at hpass
  -- the blocks of the text are those of its shape, moved
  have hmoved := hsplit
  rw [messageBlocks_text, ← List.map_reverse] at hmoved
  obtain ⟨done', rest, hparts, rfl, hrest⟩ := List.map_eq_append_iff.mp hmoved
  obtain ⟨c, todo', rfl, rfl, rfl⟩ := List.map_eq_cons_iff.mp hrest
  obtain ⟨hlength, hfront⟩ := blocks_turn hs hbodies hparts
  refine ⟨hpass, hlength, hfront, fun d hd => matchBrace_of_mem ?_⟩
  have hin : after.place d ∈ ((todo'.map (Block.move (offset ps))).map after.place).reverse :=
    List.mem_reverse.mpr (List.mem_map_of_mem hd)
  rw [← hfront] at hin
  exact (List.mem_filter.mp hin).1

/-- The inner block comes to need a digit less, and the outer one ends earlier. -/
theorem renumberDocument_eq_afresh_shortened :
    let t := Ascii.word "message A { message B { b x = 70; } b y = 3; }"
    matchBrace t 10 = .ok 45 ∧
      matchBrace (Stage.next .tracked (.pure renumber) ⟨id, (), t⟩ ⟨22, 34⟩).text 10 = .ok 44 ∧
      renumberDocument .tracked t = renumberAfresh (messageBlocks t).length t := by
  intro t
  have hblocks : (messageBlocks t).reverse = [] ++ ⟨22, 34⟩ :: [⟨10, 45⟩] := by decide +kernel
  have hplace : (Stage.next .tracked (.pure renumber) ⟨id, (), t⟩ ⟨22, 34⟩).place ⟨10, 45⟩ =
      ⟨10, 44⟩ := by decide +kernel
  obtain ⟨hturns, hafresh⟩ := renumberDocument_eq_afresh (t := t) (by decide +kernel)
  have hmatch := (hturns _ _ _ hblocks).2.2.2 ⟨10, 45⟩ List.mem_cons_self
  rw [List.foldl_nil, hplace] at hmatch
  exact ⟨by decide +kernel, hmatch, hafresh⟩

end FieldTags
