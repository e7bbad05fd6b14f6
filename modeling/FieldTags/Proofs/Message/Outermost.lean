import FieldTags.Proofs.Message.Nesting

/-! The outermost blocks of a list of blocks any two of which are nested or apart. Cutting such a list
at an offset outside all its blocks cuts its outermost blocks. -/
namespace FieldTags

def outermost (bs : List Block) : List Block := bs.filter fun c => !bs.any (·.contains c)

theorem any_contains_eq_false {bs : List Block} {c : Block}
    (h : ∀ b ∈ bs, c.lbrace ≤ b.lbrace ∨ b.rbrace ≤ c.rbrace) : bs.any (·.contains c) = false := by
  rw [List.any_eq_false]
  intro b hb
  have := h b hb
  simp only [Block.contains, Bool.and_eq_true, decide_eq_true_eq]
  omega

/-- Blocks by ascending opening braces, any two of them nested or apart. -/
structure Laminar (bs : List Block) : Prop where
  lbrace_lt : ∀ b ∈ bs, b.lbrace < b.rbrace
  pairwise : bs.Pairwise fun a b =>
    a.lbrace < b.lbrace ∧ (b.rbrace < a.rbrace ∨ a.rbrace < b.lbrace)

theorem laminar_messageBlocks (t : Bytes) : Laminar (messageBlocks t) := by
  refine ⟨fun b hb => (getElem?_rbrace hb).2, ?_⟩
  exact (pairwise_messageBlocks t).imp_of_mem fun ha hb hlt => ⟨hlt, nested_or_apart ha hb hlt⟩

namespace Laminar
variable {bs cs : List Block} {b : Block}

theorem sublist (h : Laminar bs) (hcs : cs.Sublist bs) : Laminar cs :=
  ⟨fun c hc => h.lbrace_lt c (hcs.subset hc), h.pairwise.sublist hcs⟩

theorem tail (h : Laminar (b :: bs)) : Laminar bs := h.sublist (List.sublist_cons_self b bs)

theorem head (h : Laminar (b :: bs)) {c : Block} (hc : c ∈ bs) :
    b.lbrace < c.lbrace ∧ (c.rbrace < b.rbrace ∨ b.rbrace < c.lbrace) :=
  List.rel_of_pairwise_cons h.pairwise hc

theorem filter_append_filter (h : Laminar bs) {r : Nat}
    (hr : ∀ b ∈ bs, b.rbrace < r ∨ r < b.lbrace) :
    bs.filter (·.lbrace < r) ++ bs.filter (r < ·.lbrace) = bs := by
  induction bs with
  | nil => rfl
  | cons b bs ih =>
    have ih := ih h.tail fun c hc => hr c (by simp [hc])
    have hb := h.lbrace_lt b (by simp)
    rcases hr b (by simp) with hlt | hgt
    · have hfirst : b.lbrace < r := by omega
      have hsecond : ¬ r < b.lbrace := by omega
      simpa [hfirst, hsecond] using ih
    · have hall : ∀ c ∈ b :: bs, r < c.lbrace := by
        intro c hc
        rcases List.mem_cons.mp hc with rfl | hc
        · exact hgt
        · have := (h.head hc).1
          omega
      have hnone : (b :: bs).filter (·.lbrace < r) = [] := by
        rw [List.filter_eq_nil_iff]
        intro c hc
        have := hall c hc
        simp only [decide_eq_true_eq]
        omega
      have hfull : (b :: bs).filter (r < ·.lbrace) = b :: bs := by
        rw [List.filter_eq_self]
        intro c hc
        simpa using hall c hc
      rw [hnone, hfull, List.nil_append]

theorem outermost_cut (h : Laminar bs) {r : Nat} (hr : ∀ b ∈ bs, b.rbrace < r ∨ r < b.lbrace) :
    outermost bs = outermost (bs.filter (·.lbrace < r)) ++ outermost (bs.filter (r < ·.lbrace)) := by
  have hsplit := h.filter_append_filter hr
  generalize hleft : bs.filter (·.lbrace < r) = left at hsplit ⊢
  generalize hright : bs.filter (r < ·.lbrace) = right at hsplit ⊢
  have hl : ∀ b ∈ left, b.rbrace < r := by
    intro b hb
    rw [← hleft, List.mem_filter] at hb
    have := hr b hb.1
    have := of_decide_eq_true hb.2
    omega
  have hg : ∀ b ∈ right, r < b.lbrace := by
    intro b hb
    rw [← hright, List.mem_filter] at hb
    exact of_decide_eq_true hb.2
  rw [← hsplit, outermost, List.filter_append, outermost, outermost]
  congr 1
  · refine List.filter_congr fun c hc => ?_
    have hnone : right.any (·.contains c) = false := any_contains_eq_false fun d hd => by
      have := hg d hd
      have := hl c hc
      have := h.lbrace_lt c (hsplit ▸ List.mem_append_left _ hc)
      omega
    rw [List.any_append, hnone, Bool.or_false]
  · refine List.filter_congr fun c hc => ?_
    have hnone : left.any (·.contains c) = false := any_contains_eq_false fun d hd => by
      have := hl d hd
      have := hg c hc
      have := h.lbrace_lt c (hsplit ▸ List.mem_append_right _ hc)
      omega
    rw [List.any_append, hnone, Bool.false_or]

theorem contains_eq (h : Laminar (b :: bs)) {c : Block} (hc : c ∈ bs) :
    b.contains c = decide (c.lbrace < b.rbrace) := by
  have hlt := h.lbrace_lt c (by simp [hc])
  have hcases := h.head hc
  rw [Block.contains, Bool.eq_iff_iff, Bool.and_eq_true, decide_eq_true_eq, decide_eq_true_eq,
    decide_eq_true_eq]
  omega

theorem outermost_cons (h : Laminar (b :: bs)) :
    outermost (b :: bs) = b :: outermost (bs.filter (b.rbrace < ·.lbrace)) := by
  have hcut := h.tail.outermost_cut (r := b.rbrace) fun c hc => (h.head hc).2
  have hself : (b :: bs).any (·.contains b) = false := any_contains_eq_false fun c hc => by
    rcases List.mem_cons.mp hc with rfl | hc
    · exact .inl (Nat.le_refl _)
    · exact .inl (Nat.le_of_lt (h.head hc).1)
  have hinner : (outermost (bs.filter (·.lbrace < b.rbrace))).filter (!b.contains ·) = [] := by
    rw [List.filter_eq_nil_iff]
    intro c hc
    obtain ⟨hmem, hlt⟩ := List.mem_filter.mp (List.mem_filter.mp hc).1
    rw [h.contains_eq hmem, hlt]
    simp
  have houter : (outermost (bs.filter (b.rbrace < ·.lbrace))).filter (!b.contains ·) =
      outermost (bs.filter (b.rbrace < ·.lbrace)) := by
    rw [List.filter_eq_self]
    intro c hc
    obtain ⟨hmem, hlt⟩ := List.mem_filter.mp (List.mem_filter.mp hc).1
    have hlt := of_decide_eq_true hlt
    rw [h.contains_eq hmem, decide_eq_false (by omega)]
    rfl
  have hrest : bs.filter (fun c => !(b :: bs).any (·.contains c)) =
      (outermost bs).filter (!b.contains ·) := by
    rw [outermost, List.filter_filter]
    refine List.filter_congr fun c _ => ?_
    rw [List.any_cons, Bool.not_or]
  rw [outermost, List.filter_cons, hself, hrest, hcut, List.filter_append, hinner, houter]
  rfl

theorem outermost_apart (h : Laminar bs) :
    (outermost bs).Pairwise fun a b => a.rbrace < b.lbrace := by
  have hsub : (outermost bs).Sublist bs := List.filter_sublist
  refine (h.pairwise.sublist hsub).imp_of_mem fun {a c} ha hc hac => ?_
  have hnone := (List.mem_filter.mp hc).2
  simp only [Bool.not_eq_true', List.any_eq_false] at hnone
  have hout := hnone a (hsub.subset ha)
  simp only [Block.contains, Bool.and_eq_true, decide_eq_true_eq] at hout
  omega

end Laminar
end FieldTags
