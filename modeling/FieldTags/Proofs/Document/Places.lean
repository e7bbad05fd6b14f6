import FieldTags.Proofs.Document.Calls

/-! Where the blocks lie during a pass with tracked offsets. Whatever the rewriter answers, each block
that is still to come keeps its braces in the text, and it stays around the block whose turn it is or in
front of it; so its body can be cut out, and no closing brace is moved below the front of the text. -/
namespace FieldTags

namespace Bytes
variable {t new : Bytes} {i j k : Nat}

theorem getElem?_splice_left (hi : i ≤ t.length) (hk : k < i) :
    (t.splice i j new)[k]? = t[k]? := by
  have hlen : (t.take i).length = i := List.length_take_of_le hi
  rw [splice, List.append_assoc, List.getElem?_append_left (by omega), List.getElem?_take_of_lt hk]

theorem getElem?_splice_right (hij : i ≤ j) (hj : j ≤ t.length) (hk : j ≤ k) :
    (t.splice i j new)[k + new.length - (j - i)]? = t[k]? := by
  have hlen : (t.take i ++ new).length = i + new.length := by
    rw [List.length_append, List.length_take_of_le (by omega)]
  have hback : k + new.length - (j - i) - (i + new.length) = k - j := by omega
  rw [splice, List.getElem?_append_right (by omega), hlen, hback, List.getElem?_drop,
    Nat.add_sub_cancel' hk]

theorem isBoundary_splice_left (hi : i ≤ t.length) (hk : k < i) :
    (t.splice i j new).isBoundary k = t.isBoundary k := by
  have hlen : (t.take i).length = i := List.length_take_of_le hi
  have hfront := isBoundary_append_left (t.drop i) (s := t.take i) (i := k) (by omega)
  rw [List.take_append_drop] at hfront
  rw [splice, List.append_assoc, isBoundary_append_left _ (by omega), hfront]

end Bytes

namespace Block
variable {edited c : Block} {before after : Nat}

theorem follow_around (h : edited.rbrace < c.rbrace) :
    edited.follow before after c = ⟨c.lbrace, c.rbrace + after - before⟩ :=
  if_pos h

theorem follow_before (h : c.rbrace < edited.rbrace) : edited.follow before after c = c :=
  if_neg (Nat.not_lt.mpr (Nat.le_of_lt h))

@[simp] theorem lbrace_follow : (edited.follow before after c).lbrace = c.lbrace := by
  rw [follow]
  split <;> rfl

theorem rbrace_follow : (edited.follow before after c).rbrace =
    if edited.rbrace < c.rbrace then c.rbrace + after - before else c.rbrace := by
  rw [follow]
  split <;> rfl

end Block

namespace Stage
variable {σ : Type} {rewriter : Rewriter σ} {g : Stage σ} {b c : Block} {todo : List Block}

/-- At the stage the blocks still to come have their bodies in the text, and each of them lies around
those that have their turn before it or ends in front of them. -/
structure Lies (g : Stage σ) (todo : List Block) : Prop where
  start : ∀ b ∈ todo, g.text.isBoundary (g.place b).bodyStart = true
  stop : ∀ b ∈ todo, (g.place b).lbrace < (g.place b).rbrace ∧
    g.text[(g.place b).rbrace]? = some Ascii.rightBrace
  nested : todo.Pairwise fun b c => (g.place c).lbrace < (g.place b).lbrace ∧
    ((g.place b).rbrace < (g.place c).rbrace ∨ (g.place c).rbrace < (g.place b).lbrace)

theorem lies_first {t : Bytes} (hstart : BodiesStart t) (state : σ) :
    Lies ⟨id, state, t⟩ (messageBlocks t).reverse where
  start b hb := hstart b (List.mem_reverse.mp hb)
  stop b hb := by
    obtain ⟨hbrace, hlt⟩ := getElem?_rbrace (List.mem_reverse.mp hb)
    exact ⟨hlt, hbrace⟩
  nested := (pairwise_reverse_messageBlocks t).imp_of_mem fun hb hc hlt =>
    ⟨hlt, nested_or_apart (List.mem_reverse.mp hc) (List.mem_reverse.mp hb) hlt⟩

theorem Lies.lt_length (h : Lies g todo) (hb : b ∈ todo) : (g.place b).rbrace < g.text.length :=
  (List.getElem?_eq_some_iff.mp (h.stop b hb).2).1

theorem Lies.isBoundary_rbrace (h : Lies g todo) (hb : b ∈ todo) :
    g.text.isBoundary (g.place b).rbrace = true :=
  Bytes.isBoundary_of_ascii (h.stop b hb).2 (by decide)

theorem Lies.slice? (h : Lies g todo) (hb : b ∈ todo) :
    g.text.slice? (g.place b).bodyStart (g.place b).rbrace =
      some (g.text.between (g.place b).bodyStart (g.place b).rbrace) :=
  Bytes.slice?_eq_some (h.stop b hb).1 (h.start b hb) (h.isBoundary_rbrace hb)

theorem Lies.length_body (h : Lies g todo) (hb : b ∈ todo) :
    (g.text.between (g.place b).bodyStart (g.place b).rbrace).length =
      (g.place b).rbrace - (g.place b).bodyStart :=
  Bytes.length_between (Nat.le_of_lt (h.lt_length hb))

theorem Lies.text_next (h : Lies g todo) (rewriter : Rewriter σ) (hb : b ∈ todo) (offsets : Offsets) :
    (g.next offsets rewriter b).text = g.text.splice (g.place b).bodyStart (g.place b).rbrace
      (rewriter g.state (g.text.between (g.place b).bodyStart (g.place b).rbrace)).1.text := by
  rw [next, h.slice? hb]

theorem Lies.place_next (h : Lies g todo) (rewriter : Rewriter σ) (hb : b ∈ todo) (c : Block) :
    (g.next .tracked rewriter b).place c =
      (g.place b).follow ((g.place b).rbrace - (g.place b).bodyStart)
        (rewriter g.state (g.text.between (g.place b).bodyStart (g.place b).rbrace)).1.text.length
        (g.place c) := by
  rw [next, h.slice? hb]
  simp only [h.length_body hb]
  rfl

theorem Lies.next (h : Lies g (b :: todo)) : Lies (g.next .tracked rewriter b) todo := by
  obtain ⟨hfirst, hrest⟩ := List.pairwise_cons.mp h.nested
  have hb : b ∈ b :: todo := List.mem_cons_self
  have hlt := (h.stop b hb).1
  have hlen := h.lt_length hb
  have hbody : (g.place b).bodyStart = (g.place b).lbrace + 1 := rfl
  have htext := h.text_next rewriter hb .tracked
  have hplace := h.place_next rewriter hb
  generalize (rewriter g.state (g.text.between (g.place b).bodyStart (g.place b).rbrace)).1.text = new
    at htext hplace
  refine ⟨fun c hc => ?_, fun c hc => ?_, ?_⟩
  · have hlt := (hfirst c hc).1
    have hstart : ∀ d : Block, d.bodyStart = d.lbrace + 1 := fun _ => rfl
    have hsame := h.start c (List.mem_cons_of_mem b hc)
    rw [hplace, htext]
    simp only [hstart, Block.lbrace_follow] at hsame ⊢
    rwa [Bytes.isBoundary_splice_left (by omega) (by omega)]
  · obtain ⟨hcb, hnested⟩ := hfirst c hc
    obtain ⟨hc, hbrace⟩ := h.stop c (List.mem_cons_of_mem b hc)
    rw [hplace, htext]
    rcases hnested with hin | hout
    · rw [Block.follow_around hin]
      refine ⟨by simp only; omega, ?_⟩
      simp only
      rw [Bytes.getElem?_splice_right (by omega) (by omega) (by omega), hbrace]
    · rw [Block.follow_before (by omega)]
      exact ⟨hc, by rw [Bytes.getElem?_splice_left (by omega) (by omega), hbrace]⟩
  · refine hrest.imp_of_mem fun {c d} hc hd hcd => ?_
    have hcb := hfirst c hc
    have hdb := hfirst d hd
    have hcin := (h.stop c (List.mem_cons_of_mem b hc)).1
    rw [hplace, hplace, Block.lbrace_follow, Block.lbrace_follow, Block.rbrace_follow,
      Block.rbrace_follow]
    split <;> split <;> omega

theorem Lies.foldl {done : List Block} (h : Lies g (done ++ todo)) (rewriter : Rewriter σ) :
    Lies (done.foldl (Stage.next .tracked rewriter) g) todo := by
  induction done generalizing g with
  | nil => exact h
  | cons b done ih => exact ih h.next

end Stage
end FieldTags
