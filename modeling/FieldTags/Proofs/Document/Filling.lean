import FieldTags.Proofs.Document.Calls
import FieldTags.Proofs.Message.Outermost
import FieldTags.Proofs.Text.Stretch

/-! Texts in which the bodies of some message blocks have been replaced, the inner blocks first. An
outer body is then made of untouched bytes and of the answers to the blocks directly in it. -/
namespace FieldTags
open Edit

section
variable (answer : Block → Rewrite) (t : Bytes)

/-- The body of the block becomes its answer. -/
def Block.fill (b : Block) : Edit := ⟨b.bodyStart, b.rbrace, (answer b).text⟩

def fills (bs : List Block) : List Edit := (outermost bs).map (Block.fill answer)

/-- The body of `b`, that of each block directly in it being the answer to that block. -/
def filledBody (b : Block) : Bytes :=
  within (fills answer ((messageBlocks t).filter (b.contains ·))) t b.bodyStart b.rbrace

/-- The text, the body of each of the given blocks that lies in no other being the answer to it. -/
def filledText (bs : List Block) : Bytes := within (fills answer bs) t 0 t.length

def filledBefore (bs : List Block) (r : Nat) : Bytes :=
  within (fills answer (bs.filter (·.lbrace < r))) t 0 r

def filledFrom (bs : List Block) (r : Nat) : Bytes :=
  within (fills answer (bs.filter (r < ·.lbrace))) t r t.length

end

section
variable (answer : Block → Rewrite) {t : Bytes} {b c : Block} {bs front done : List Block}

theorem inOrder_map_fill {cs : List Block} (hlt : ∀ c ∈ cs, c.lbrace < c.rbrace)
    (hapart : cs.Pairwise fun a b => a.rbrace < b.lbrace) {i j : Nat} (hij : i ≤ j)
    (hin : ∀ c ∈ cs, i ≤ c.bodyStart ∧ c.rbrace ≤ j) :
    InOrder i j (cs.map (Block.fill answer)) := by
  induction cs generalizing i with
  | nil => exact hij
  | cons c cs ih =>
    obtain ⟨hhead, htail⟩ := List.pairwise_cons.mp hapart
    refine ⟨(hin c (by simp)).1, hlt c (by simp), ?_⟩
    refine ih (fun d hd => hlt d (by simp [hd])) htail (hin c (by simp)).2 fun d hd => ?_
    have hstart : d.bodyStart = d.lbrace + 1 := rfl
    have hcd := hhead d hd
    have hd := hin d (by simp [hd])
    change c.rbrace ≤ d.bodyStart ∧ d.rbrace ≤ j
    omega

theorem inOrder_fills (hbs : bs.Sublist (messageBlocks t)) {i j : Nat} (hij : i ≤ j)
    (hin : ∀ b ∈ bs, i ≤ b.bodyStart ∧ b.rbrace ≤ j) : InOrder i j (fills answer bs) := by
  have hlam := (laminar_messageBlocks t).sublist hbs
  have hsub : (outermost bs).Sublist bs := List.filter_sublist
  exact inOrder_map_fill answer (hlam.sublist hsub).lbrace_lt hlam.outermost_apart hij fun c hc =>
    hin c (hsub.subset hc)

theorem within_fills_cut (hbs : bs.Sublist (messageBlocks t)) {i r j : Nat} (hir : i ≤ r)
    (hrj : r ≤ j) (hin : ∀ b ∈ bs, i ≤ b.bodyStart ∧ b.rbrace ≤ j)
    (hr : ∀ b ∈ bs, b.rbrace < r ∨ r < b.lbrace) :
    within (fills answer bs) t i j =
      within (fills answer (bs.filter (·.lbrace < r))) t i r ++
        within (fills answer (bs.filter (r < ·.lbrace))) t r j := by
  have hlam := (laminar_messageBlocks t).sublist hbs
  have hsplit : fills answer bs = fills answer (bs.filter (·.lbrace < r)) ++
      fills answer (bs.filter (r < ·.lbrace)) := by
    rw [fills, hlam.outermost_cut hr, List.map_append]
    rfl
  rw [hsplit]
  refine within_append t (inOrder_fills answer (List.filter_sublist.trans hbs) hir fun b hb => ?_)
    (inOrder_fills answer (List.filter_sublist.trans hbs) hrj fun b hb => ?_)
  · obtain ⟨hmem, hlt⟩ := List.mem_filter.mp hb
    have hlt := of_decide_eq_true hlt
    have hcases := hr b hmem
    have := hin b hmem
    have := hlam.lbrace_lt b hmem
    omega
  · obtain ⟨hmem, hlt⟩ := List.mem_filter.mp hb
    have hlt := of_decide_eq_true hlt
    have hstart : b.bodyStart = b.lbrace + 1 := rfl
    have := hin b hmem
    omega

theorem within_fills_cons (hbs : (b :: bs).Sublist (messageBlocks t)) {i j : Nat}
    (hin : ∀ c ∈ b :: bs, i ≤ c.bodyStart ∧ c.rbrace ≤ j) :
    within (fills answer (b :: bs)) t i j =
      t.between i b.bodyStart ++ (answer b).text ++
        within (fills answer (bs.filter (b.rbrace < ·.lbrace))) t b.rbrace j := by
  have hlam := (laminar_messageBlocks t).sublist hbs
  have hfirst : fills answer (b :: bs) =
      b.fill answer :: fills answer (bs.filter (b.rbrace < ·.lbrace)) := by
    rw [fills, hlam.outermost_cons]
    rfl
  have hb := hin b (by simp)
  have hlt := hlam.lbrace_lt b (by simp)
  have hstart : b.bodyStart = b.lbrace + 1 := rfl
  have horder := inOrder_fills answer hbs (by omega) hin
  rw [hfirst] at horder ⊢
  exact within_cons t horder

/-- A byte that no filled body starts at or in front of stays first in its stretch. -/
theorem exists_within_fills_eq_cons (hbs : bs.Sublist (messageBlocks t)) {i j : Nat} {x : UInt8}
    (hx : t[i]? = some x) (hij : i < j) (hin : ∀ b ∈ bs, i ≤ b.lbrace ∧ b.rbrace ≤ j) :
    ∃ rest, within (fills answer bs) t i j = x :: rest :=
  exists_within_eq_cons hx <| inOrder_fills answer hbs hij fun b hb =>
    ⟨Nat.succ_le_succ (hin b hb).1, (hin b hb).2⟩

theorem rbrace_lt_length (hb : b ∈ messageBlocks t) : b.rbrace < t.length :=
  (List.getElem?_eq_some_iff.mp (getElem?_rbrace hb).1).1

theorem inside_text (hbs : bs.Sublist (messageBlocks t)) :
    ∀ b ∈ bs, 0 ≤ b.bodyStart ∧ b.rbrace ≤ t.length := fun _ hb =>
  ⟨Nat.zero_le _, Nat.le_of_lt (rbrace_lt_length (hbs.subset hb))⟩

theorem mem_of_contains (hsplit : messageBlocks t = front ++ b :: done) (hc : c ∈ messageBlocks t)
    (hin : b.contains c = true) : c ∈ done := by
  have hlam := hsplit ▸ laminar_messageBlocks t
  simp only [Block.contains, Bool.and_eq_true, decide_eq_true_eq] at hin
  rw [hsplit] at hc
  rcases List.mem_append.mp hc with hfront | hrest
  · have := ((List.pairwise_append.mp hlam.pairwise).2.2 c hfront b (by simp)).1
    omega
  · rcases List.mem_cons.mp hrest with rfl | hmem
    · omega
    · exact hmem

theorem filledBody_eq (hsplit : messageBlocks t = front ++ b :: done) :
    filledBody answer t b =
      within (fills answer (done.filter (·.lbrace < b.rbrace))) t b.bodyStart b.rbrace := by
  have hlam := hsplit ▸ laminar_messageBlocks t
  have hfront : front.filter (b.contains ·) = [] := by
    rw [List.filter_eq_nil_iff]
    intro c hc
    have := ((List.pairwise_append.mp hlam.pairwise).2.2 c hc b (by simp)).1
    simp only [Block.contains, Bool.and_eq_true, decide_eq_true_eq]
    omega
  have hself : b.contains b = false := by
    simp [Block.contains]
  have hinner : done.filter (b.contains ·) = done.filter (·.lbrace < b.rbrace) :=
    List.filter_congr fun c hc => (hlam.sublist (List.sublist_append_right _ _)).contains_eq hc
  rw [filledBody, hsplit, List.filter_append, hfront, List.nil_append, List.filter_cons, hself,
    ← hinner]
  rfl

theorem filledText_cut (hbs : bs.Sublist (messageBlocks t)) {r : Nat} (hlen : r ≤ t.length)
    (hr : ∀ b ∈ bs, b.rbrace < r ∨ r < b.lbrace) :
    filledText answer t bs = filledBefore answer t bs r ++ filledFrom answer t bs r :=
  within_fills_cut answer hbs (Nat.zero_le r) hlen (inside_text hbs) hr

theorem filledText_cons (hbs : (b :: bs).Sublist (messageBlocks t)) :
    filledText answer t (b :: bs) =
      t.between 0 b.bodyStart ++ (answer b).text ++ filledFrom answer t bs b.rbrace :=
  within_fills_cons answer hbs (inside_text hbs)

/-- What a body becomes depends on the answers to the blocks in it only. -/
theorem filledBody_congr {other : Block → Rewrite}
    (h : ∀ c ∈ messageBlocks t, b.contains c = true → answer c = other c) :
    filledBody answer t b = filledBody other t b := by
  have hfills : fills answer ((messageBlocks t).filter (b.contains ·)) =
      fills other ((messageBlocks t).filter (b.contains ·)) := by
    refine List.map_congr_left fun c hc => ?_
    obtain ⟨hmem, hin⟩ := List.mem_filter.mp (List.mem_filter.mp hc).1
    rw [Block.fill, Block.fill, h c hmem hin]
  rw [filledBody, filledBody, hfills]

end
end FieldTags
