import FieldTags.Proofs.Document.Renumbering
import FieldTags.Proofs.Text.Cutting

/-! The calls that a pass makes to its rewriter, one for each block, and what the answers are. As long
as every answer is the body that was given, no block moves. -/
namespace FieldTags
variable {σ : Type}

/-- The answers to calls with the given bodies, one after the other. -/
def Rewriter.answers (rewriter : Rewriter σ) : σ → List Bytes → List Rewrite
  | _, [] => []
  | state, body :: bodies =>
    (rewriter state body).1 :: rewriter.answers (rewriter state body).2 bodies

theorem Rewriter.answers_pure (f : Bytes → Rewrite) (bodies : List Bytes) :
    (Rewriter.pure f).answers () bodies = bodies.map f := by
  induction bodies with
  | nil => rfl
  | cons body bodies ih =>
    rw [List.map_cons, ← ih]
    rfl

theorem Bytes.splice_between (t : Bytes) {i j : Nat} (h : i ≤ j) :
    t.splice i j (t.between i j) = t := by
  have hfront : t.take i ++ (t.take j).drop i = t.take j := by
    have := List.take_append_drop i (t.take j)
    rwa [List.take_take, Nat.min_eq_left h] at this
  rw [Bytes.splice, Bytes.between, hfront, List.take_append_drop]

theorem Bytes.splice_of_slice? {t body : Bytes} {i j : Nat} (h : t.slice? i j = some body) :
    t.splice i j body = t := by
  obtain ⟨⟨hle, -⟩, hbody⟩ := slice?_eq_some_iff.mp h
  rw [← hbody, splice_between t hle]

theorem Block.follow_self (edited : Block) (n : Nat) : edited.follow n n = id := by
  funext b
  simp [Block.follow]

theorem slice?_bodyOf {t : Bytes} (hstart : BodiesStart t) {b : Block}
    (hb : b ∈ messageBlocks t) : t.slice? b.bodyStart b.rbrace = some (bodyOf t b) := by
  obtain ⟨hr, hlt⟩ := getElem?_rbrace hb
  have hstop : t.isBoundary b.rbrace = true := by
    simp [Bytes.isBoundary, hr, Utf8.not_isContinuation_of_ascii (b := Ascii.rightBrace) (by decide)]
  exact if_pos ⟨hlt, hstart b hb, hstop⟩

theorem Outcome.changed_eq_false {o : Outcome} :
    o.changed = false ↔ ∀ s ∈ o.steps, s.rewritten = false := by
  simp [changed, rewritten]

/-- A pass rewrites no body exactly if every answer is the body of its block as it stands in the
text. -/
theorem passFrom_unchanged_iff (offsets : Offsets) (rewriter : Rewriter σ) {t : Bytes}
    (hstart : BodiesStart t) (state : σ) {blocks : List Block}
    (hmem : ∀ b ∈ blocks, b ∈ messageBlocks t) :
    (∀ s ∈ (passFrom offsets rewriter id state t blocks).2, s.rewritten = false) ↔
      (rewriter.answers state (blocks.map (bodyOf t))).map Rewrite.text = blocks.map (bodyOf t) := by
  induction blocks generalizing state with
  | nil => simp [passFrom, Rewriter.answers]
  | cons b blocks ih =>
    have hb := hmem b (by simp)
    have ih := ih (rewriter state (bodyOf t b)).2 fun c hc => hmem c (by simp [hc])
    rw [passFrom]
    simp only [id_eq, slice?_bodyOf hstart hb, List.map_cons, Rewriter.answers, List.forall_mem_cons,
      List.cons.injEq, Step.rewritten, bne_eq_false_iff_eq]
    refine and_congr_right fun hsame => ?_
    have hsplice : t.splice b.bodyStart b.rbrace (rewriter state (bodyOf t b)).1.text = t := by
      rw [hsame]
      exact Bytes.splice_between t (getElem?_rbrace hb).2
    rw [hsplice, ← ih]
    cases offsets with
    | tracked =>
      rw [hsame, Block.follow_self, Function.id_comp]
      rfl
    | fixed => rfl

end FieldTags
