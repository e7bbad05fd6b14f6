import FieldTags.Proofs.Document.Calls

/-! Passes with tracked and with fixed offsets, side by side. They are the same pass until a call on an
enclosed block changes the length of its body, for only then does a block that is still to come move. -/
namespace FieldTags
variable {σ : Type}

def Step.KeepsLength : Step → Prop
  | .skipped _ => True
  | .handled _ body answer => answer.text.length = body.length

instance (s : Step) : Decidable s.KeepsLength :=
  match s with
  | .skipped _ => inferInstanceAs (Decidable True)
  | .handled _ body answer => inferInstanceAs (Decidable (answer.text.length = body.length))

theorem Step.keepsLength_of_unchanged {s : Step} (h : s.rewritten = false) : s.KeepsLength := by
  cases s with
  | skipped b => exact trivial
  | handled b body answer =>
    have hsame : answer.text = body := by simpa [rewritten] using h
    exact congrArg List.length hsame

/-- Every call on a block that lies in another one keeps the length of its body. -/
def EnclosedKept (blocks : List Block) (steps : List Step) : Prop :=
  ∀ p ∈ blocks.zip steps, (∃ a ∈ blocks, a.contains p.1 = true) → p.2.KeepsLength

instance (blocks : List Block) (steps : List Step) : Decidable (EnclosedKept blocks steps) :=
  inferInstanceAs (Decidable (∀ p ∈ blocks.zip steps, _ → _))

theorem EnclosedKept.tail {b : Block} {blocks : List Block} {s : Step} {steps : List Step}
    (h : EnclosedKept (b :: blocks) (s :: steps)) : EnclosedKept blocks steps := by
  intro p hp ⟨a, ha, hin⟩
  exact h p (by simp [hp]) ⟨a, by simp [ha], hin⟩

theorem enclosedKept_of_unchanged {steps : List Step} (h : ∀ s ∈ steps, s.rewritten = false)
    (blocks : List Block) : EnclosedKept blocks steps := fun p hp _ =>
  Step.keepsLength_of_unchanged (h p.2 (List.of_mem_zip hp).2)

/-- The blocks that are still to come stay, unless the edited one lies in one of them and changed its
length. -/
theorem follow_eq_self {b c : Block} (hlt : c.lbrace < b.lbrace) {before after : Nat}
    (h : c.contains b = true → after = before) : b.follow before after c = c := by
  rw [Block.follow]
  by_cases hin : b.rbrace < c.rbrace
  · have hsame := h (by simp [Block.contains, hlt, hin])
    rw [if_pos hin, hsame, Nat.add_sub_cancel]
  · rw [if_neg hin]

/-- As long as all blocks are in their places, and the calls on enclosed ones keep the lengths, the
offsets make no difference. -/
theorem passFrom_eq_of_enclosedKept (rewriter : Rewriter σ) {offsets : Offsets} (other : Offsets)
    {blocks : List Block} (hdesc : blocks.Pairwise fun b c => c.lbrace < b.lbrace)
    {place place' : Block → Block} (hplace : ∀ b ∈ blocks, place b = b)
    (hplace' : ∀ b ∈ blocks, place' b = b) {state : σ} {t : Bytes}
    (h : EnclosedKept blocks (passFrom offsets rewriter place state t blocks).2) :
    passFrom offsets rewriter place state t blocks =
      passFrom other rewriter place' state t blocks := by
  induction blocks generalizing place place' state t with
  | nil => rfl
  | cons b blocks ih =>
    obtain ⟨hlt, hrest⟩ := List.pairwise_cons.mp hdesc
    have hb := hplace b (by simp)
    have hb' := hplace' b (by simp)
    have hlater : ∀ c ∈ blocks, place c = c := fun c hc => hplace c (by simp [hc])
    have hlater' : ∀ c ∈ blocks, place' c = c := fun c hc => hplace' c (by simp [hc])
    rw [passFrom] at h ⊢
    rw [passFrom]
    simp only [hb, hb'] at h ⊢
    cases hslice : t.slice? b.bodyStart b.rbrace with
    | none =>
      simp only [hslice] at h ⊢
      rw [ih hrest hlater hlater' h.tail]
    | some body =>
      simp only [hslice] at h ⊢
      have hsame : ∀ c ∈ blocks, c.contains b = true →
          (rewriter state body).1.text.length = body.length := fun c hc hin =>
        h (b, _) List.mem_cons_self ⟨c, by simp [hc], hin⟩
      -- the moves that the tracked pass makes, of which the fixed one makes none
      have hmoved : ∀ (f : Block → Block) (kind : Offsets), (∀ c ∈ blocks, f c = c) →
          ∀ c ∈ blocks,
            kind.place b body.length (rewriter state body).1.text.length f c = c := by
        intro f kind hf c hc
        cases kind with
        | tracked =>
          change b.follow _ _ (f c) = c
          rw [hf c hc]
          exact follow_eq_self (hlt c hc) (hsame c hc)
        | fixed => exact hf c hc
      have hnext := ih hrest (hmoved place offsets hlater) (hmoved place' other hlater') h.tail
      exact congrArg (fun later => (later.1, Step.handled b body _ :: later.2)) hnext

theorem passFrom_text_of_unchanged (offsets : Offsets) (rewriter : Rewriter σ)
    (place : Block → Block) (state : σ) (t : Bytes) (blocks : List Block)
    (h : ∀ s ∈ (passFrom offsets rewriter place state t blocks).2, s.rewritten = false) :
    (passFrom offsets rewriter place state t blocks).1 = t := by
  induction blocks generalizing place state with
  | nil => rfl
  | cons b blocks ih =>
    rw [passFrom] at h ⊢
    cases hslice : t.slice? (place b).bodyStart (place b).rbrace with
    | none =>
      simp only [hslice] at h ⊢
      exact ih _ _ fun s hs => h s (by simp [hs])
    | some body =>
      simp only [hslice] at h ⊢
      have hbody : (rewriter state body).1.text = body := by
        simpa [Step.rewritten] using h _ List.mem_cons_self
      have hsplice : t.splice (place b).bodyStart (place b).rbrace (rewriter state body).1.text = t := by
        rw [hbody, Bytes.splice_of_slice? hslice]
      rw [hsplice] at h ⊢
      exact ih _ _ fun s hs => h s (by simp [hs])

theorem renumberDocument_text_of_unchanged {offsets : Offsets} {t : Bytes}
    (h : (renumberDocument offsets t).changed = false) : (renumberDocument offsets t).text = t :=
  passFrom_text_of_unchanged offsets _ id () t _ (Outcome.changed_eq_false.mp h)

section
variable (rewriter : Rewriter σ) (state : σ) (t : Bytes)

theorem rewriteMessages_eq_of_enclosedKept {offsets : Offsets} (other : Offsets)
    (h : EnclosedKept (messageBlocks t).reverse (rewriteMessages offsets rewriter state t).steps) :
    rewriteMessages offsets rewriter state t = rewriteMessages other rewriter state t := by
  have hplace : ∀ b ∈ (messageBlocks t).reverse, id b = b := fun _ _ => rfl
  have hpass := passFrom_eq_of_enclosedKept rewriter other (pairwise_reverse_messageBlocks t) hplace
    hplace h
  rw [rewriteMessages, hpass]
  rfl

theorem rewriteMessages_eq_of_unchanged {offsets : Offsets} (other : Offsets)
    (h : (rewriteMessages offsets rewriter state t).changed = false) :
    rewriteMessages offsets rewriter state t = rewriteMessages other rewriter state t :=
  rewriteMessages_eq_of_enclosedKept rewriter state t other
    (enclosedKept_of_unchanged (Outcome.changed_eq_false.mp h) _)

end

theorem renumberDocument_changed (offsets other : Offsets) (t : Bytes) :
    (renumberDocument offsets t).changed = (renumberDocument other t).changed := by
  cases h : (renumberDocument offsets t).changed with
  | false =>
    have hsame := rewriteMessages_eq_of_unchanged _ _ _ other h
    rw [renumberDocument, ← hsame]
    exact h.symm
  | true =>
    cases hother : (renumberDocument other t).changed with
    | false =>
      have hsame := rewriteMessages_eq_of_unchanged _ _ _ offsets hother
      rw [renumberDocument, hsame] at hother
      exact absurd (h.symm.trans hother) nofun
    | true => rfl

/-- Whatever the rewriter answers, both kinds of offsets report a change or neither does. Without a
change the outcomes are equal, and the text is left as it is. They are equal too if no call of the
tracked pass on a block that lies in another block of the text changes the length of its body. An
outcome is the text and the steps, and so it holds the counts and the bodies of all calls in turn. -/
theorem rewriteMessages_offsets_agree (rewriter : Rewriter σ) (state : σ) (t : Bytes) :
    let tracked := rewriteMessages .tracked rewriter state t
    let fixed := rewriteMessages .fixed rewriter state t
    tracked.changed = fixed.changed ∧
    (tracked.changed = false → tracked = fixed ∧ tracked.text = t) ∧
    (EnclosedKept (messageBlocks t).reverse tracked.steps → tracked = fixed) := by
  intro tracked fixed
  have hforth : tracked.changed = false → tracked = fixed :=
    rewriteMessages_eq_of_unchanged rewriter state t .fixed
  have hback : fixed.changed = false → fixed = tracked :=
    rewriteMessages_eq_of_unchanged rewriter state t .tracked
  refine ⟨?_, fun h => ⟨hforth h, ?_⟩, rewriteMessages_eq_of_enclosedKept rewriter state t .fixed⟩
  · cases htracked : tracked.changed with
    | false => rw [← hforth htracked, htracked]
    | true =>
      cases hfixed : fixed.changed with
      | false => rw [← htracked, ← hback hfixed, hfixed]
      | true => rfl
  · exact passFrom_text_of_unchanged .tracked rewriter id state t _ (Outcome.changed_eq_false.mp h)

theorem rewriteMessages_offsets_agree_nested :
    let t := Ascii.word "message A { message B { b x = 7; } b y = 30; }"
    EnclosedKept (messageBlocks t).reverse (renumberDocument .tracked t).steps ∧
      renumberDocument .tracked t = renumberDocument .fixed t := by
  intro t
  have hkept : EnclosedKept (messageBlocks t).reverse (renumberDocument .tracked t).steps := by
    decide +kernel
  exact ⟨hkept, (rewriteMessages_offsets_agree (.pure renumber) () t).2.2 hkept⟩

/-- A text may come back as it was although a change is reported: here the inner body is emptied and the
answer to the outer one restores it. With fixed offsets the outer body no longer fits and is skipped. -/
theorem text_restored_by_tracked_only :
    let t := Ascii.word "message A { message B { x } }"
    let answers : List (Bytes → Rewrite) :=
      [fun _ => ⟨[], 0⟩, fun _ => ⟨Ascii.word " message B { x } ", 0⟩]
    (rewriteMessages .tracked Rewriter.script answers t).text = t ∧
      (rewriteMessages .fixed Rewriter.script answers t).text =
        Ascii.word "message A { message B {} }" := by
  decide +kernel

end FieldTags
