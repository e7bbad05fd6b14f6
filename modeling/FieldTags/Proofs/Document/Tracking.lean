import FieldTags.Proofs.Document.Filling

/-! A pass with tracked offsets rewrites the nested blocks of a text from the inside out, whatever its
rewriter answers. All blocks that open behind a block have been filled when its turn comes, and those
that close before its closing brace decide where that brace stands. -/
namespace FieldTags
open Edit

theorem Bytes.isBoundary_append {c : UInt8} (hc : Utf8.isContinuation c = false) (s rest : Bytes) :
    (s ++ c :: rest).isBoundary s.length = true := by
  simp [isBoundary, hc]

theorem Bytes.slice?_middle {s body rest : Bytes}
    (hstart : (s ++ (body ++ rest)).isBoundary s.length = true)
    (hstop : (s ++ (body ++ rest)).isBoundary (s.length + body.length) = true) :
    (s ++ (body ++ rest)).slice? s.length (s.length + body.length) = some body := by
  rw [slice?, if_pos ⟨Nat.le_add_right _ _, hstart, hstop⟩, between, List.take_length_add_append,
    List.drop_left, List.take_left]

theorem Bytes.splice_middle (s body rest new : Bytes) :
    (s ++ (body ++ rest)).splice s.length (s.length + body.length) new = s ++ new ++ rest := by
  rw [splice, List.take_left, List.drop_length_add_append, List.drop_left]

section
variable (answer : Block → Rewrite) (t : Bytes)

/-- Where the braces of a block stand once the blocks `done` behind its opening brace are filled. -/
def Block.placed (done : List Block) (b : Block) : Block :=
  ⟨b.lbrace, (filledBefore answer t done b.rbrace).length⟩

/-- The step of a pass that hands out the filled body of a block. -/
def Block.turn (b : Block) : Step :=
  .handled ⟨b.lbrace, b.bodyStart + (filledBody answer t b).length⟩ (filledBody answer t b) (answer b)

end

section
variable (answer : Block → Rewrite) {t : Bytes} {b c : Block} {front done : List Block}

theorem sublist_of_split (hsplit : messageBlocks t = front ++ b :: done) :
    (b :: done).Sublist (messageBlocks t) :=
  hsplit ▸ List.sublist_append_right front (b :: done)

theorem mem_of_split (hsplit : messageBlocks t = front ++ b :: done) : b ∈ messageBlocks t :=
  (sublist_of_split hsplit).subset List.mem_cons_self

theorem length_between_bodyStart (hb : b ∈ messageBlocks t) :
    (t.between 0 b.bodyStart).length = b.bodyStart := by
  obtain ⟨hr, hlt⟩ := getElem?_rbrace hb
  have hbody : b.bodyStart ≤ b.rbrace := hlt
  have hlen := rbrace_lt_length hb
  rw [Bytes.length_between (by omega), Nat.sub_zero]

theorem laminar_of_split (hsplit : messageBlocks t = front ++ b :: done) : Laminar (b :: done) :=
  (laminar_messageBlocks t).sublist (sublist_of_split hsplit)

/-- Up to its closing brace, the text when a block has its turn is the untouched text up to its body,
and then the filled body. -/
theorem filledBefore_turn (hsplit : messageBlocks t = front ++ b :: done) :
    filledBefore answer t done b.rbrace = t.between 0 b.bodyStart ++ filledBody answer t b := by
  have hlam := laminar_of_split hsplit
  have hdone := (List.sublist_cons_self b done).trans (sublist_of_split hsplit)
  have horder : InOrder b.bodyStart b.rbrace (fills answer (done.filter (·.lbrace < b.rbrace))) := by
    refine inOrder_fills answer (List.filter_sublist.trans hdone) (hlam.lbrace_lt b (by simp)) ?_
    intro c hc
    obtain ⟨hmem, hlt⟩ := List.mem_filter.mp hc
    have hlt := of_decide_eq_true hlt
    have := hlam.head hmem
    have hb : b.bodyStart = b.lbrace + 1 := rfl
    have hc : c.bodyStart = c.lbrace + 1 := rfl
    omega
  rw [filledBefore, filledBody_eq answer hsplit]
  exact within_of_le t (Nat.zero_le _) horder

theorem length_filledBefore_turn (hsplit : messageBlocks t = front ++ b :: done) :
    (filledBefore answer t done b.rbrace).length =
      b.bodyStart + (filledBody answer t b).length := by
  rw [filledBefore_turn answer hsplit, List.length_append,
    length_between_bodyStart (mem_of_split hsplit)]

theorem placed_turn (hsplit : messageBlocks t = front ++ b :: done) :
    b.placed answer t done = ⟨b.lbrace, b.bodyStart + (filledBody answer t b).length⟩ := by
  rw [Block.placed, length_filledBefore_turn answer hsplit]

theorem filledText_turn (hsplit : messageBlocks t = front ++ b :: done) :
    filledText answer t done =
      t.between 0 b.bodyStart ++ (filledBody answer t b ++ filledFrom answer t done b.rbrace) := by
  have hdone := (List.sublist_cons_self b done).trans (sublist_of_split hsplit)
  have hlen := rbrace_lt_length (mem_of_split hsplit)
  rw [filledText_cut answer hdone (Nat.le_of_lt hlen) fun c hc => ((laminar_of_split hsplit).head hc).2,
    filledBefore_turn answer hsplit, List.append_assoc]

theorem exists_filledFrom_eq_cons (hsplit : messageBlocks t = front ++ b :: done) :
    ∃ rest, filledFrom answer t done b.rbrace = Ascii.rightBrace :: rest := by
  have hdone := (List.sublist_cons_self b done).trans (sublist_of_split hsplit)
  have hb := mem_of_split hsplit
  refine exists_within_fills_eq_cons answer (List.filter_sublist.trans hdone) (getElem?_rbrace hb).1
    (rbrace_lt_length hb) fun c hc => ?_
  obtain ⟨hmem, hlt⟩ := List.mem_filter.mp hc
  exact ⟨Nat.le_of_lt (of_decide_eq_true hlt), (inside_text hdone c hmem).2⟩

/-- The byte behind an opening brace is the one of the text, for no filled body starts there. -/
theorem exists_body_eq_cons (hsplit : messageBlocks t = front ++ b :: done) {x : UInt8}
    (hx : t[b.bodyStart]? = some x) :
    ∃ rest, filledBody answer t b ++ filledFrom answer t done b.rbrace = x :: rest := by
  have hlam := laminar_of_split hsplit
  have hdone := (List.sublist_cons_self b done).trans (sublist_of_split hsplit)
  have hlen := rbrace_lt_length (mem_of_split hsplit)
  have hlt : b.bodyStart ≤ b.rbrace := hlam.lbrace_lt b (by simp)
  have hin : ∀ c ∈ done, b.bodyStart ≤ c.lbrace ∧ c.rbrace ≤ t.length := fun c hc =>
    ⟨(hlam.head hc).1, (inside_text hdone c hc).2⟩
  have hcut := within_fills_cut answer hdone hlt (Nat.le_of_lt hlen)
    (fun c hc => ⟨Nat.le_succ_of_le (hin c hc).1, (hin c hc).2⟩) fun c hc => (hlam.head hc).2
  rw [← filledBody_eq answer hsplit] at hcut
  obtain ⟨rest, hrest⟩ := exists_within_fills_eq_cons answer hdone hx
    (Nat.lt_of_le_of_lt hlt hlen) hin
  exact ⟨rest, hcut.symm.trans hrest⟩

theorem slice?_turn (hsplit : messageBlocks t = front ++ b :: done) (hstart : BodiesStart t) :
    (filledText answer t done).slice? b.bodyStart (b.bodyStart + (filledBody answer t b).length) =
      some (filledBody answer t b) := by
  have hb := mem_of_split hsplit
  have hlen := rbrace_lt_length hb
  have hlt : b.bodyStart ≤ b.rbrace := (laminar_of_split hsplit).lbrace_lt b (by simp)
  have hfront := length_between_bodyStart hb
  obtain ⟨x, hx⟩ : ∃ x, t[b.bodyStart]? = some x := ⟨_, List.getElem?_eq_getElem (by omega)⟩
  have hcont : Utf8.isContinuation x = false := by
    have hbound := hstart b hb
    have hpos : b.bodyStart ≠ 0 := Nat.succ_ne_zero _
    have hend : b.bodyStart ≠ t.length := by omega
    simpa [Bytes.isBoundary, hpos, hend, hx] using hbound
  obtain ⟨rest, hrest⟩ := exists_filledFrom_eq_cons answer hsplit
  obtain ⟨rest', hrest'⟩ := exists_body_eq_cons answer hsplit hx
  rw [filledText_turn answer hsplit]
  generalize t.between 0 b.bodyStart = s at hfront ⊢
  rw [← hfront]
  refine Bytes.slice?_middle ?_ ?_
  · rw [hrest']
    exact Bytes.isBoundary_append hcont s rest'
  · rw [← List.append_assoc, ← List.length_append, hrest]
    exact Bytes.isBoundary_append (by decide) _ rest

theorem splice_turn (hsplit : messageBlocks t = front ++ b :: done) :
    (filledText answer t done).splice b.bodyStart (b.bodyStart + (filledBody answer t b).length)
      (answer b).text = filledText answer t (b :: done) := by
  have hfront := length_between_bodyStart (mem_of_split hsplit)
  rw [filledText_turn answer hsplit, filledText_cons answer (sublist_of_split hsplit)]
  generalize t.between 0 b.bodyStart = s at hfront ⊢
  rw [← hfront]
  exact Bytes.splice_middle s _ _ _

theorem rbrace_lt_of_around (hsplit : messageBlocks t = front ++ b :: done) (hc : c ∈ front)
    {d : Block} (hd : d ∈ done) (hdc : d.lbrace < c.rbrace) : d.rbrace < c.rbrace := by
  have hall := hsplit ▸ laminar_messageBlocks t
  have := ((List.pairwise_append.mp hall.pairwise).2.2 c hc d (by simp [hd])).2
  omega

/-- Before the closing brace of a block around `b`, the turn of `b` puts its answer in the place of its
filled body. -/
theorem filledBefore_around (hsplit : messageBlocks t = front ++ b :: done) (hc : c ∈ front)
    (hbc : b.rbrace < c.rbrace) : ∃ x rest,
      filledBefore answer t done c.rbrace =
        t.between 0 b.bodyStart ++ filledBody answer t b ++ x :: rest ∧
      filledBefore answer t (b :: done) c.rbrace =
        t.between 0 b.bodyStart ++ (answer b).text ++ x :: rest := by
  have hlam := laminar_of_split hsplit
  have hb := hlam.lbrace_lt b (by simp)
  have hkeep : (b :: done).filter (·.lbrace < c.rbrace) = b :: done.filter (·.lbrace < c.rbrace) := by
    rw [List.filter_cons, if_pos (by simp; omega)]
  have hbefore : (done.filter (·.lbrace < c.rbrace)).filter (·.lbrace < b.rbrace) =
      done.filter (·.lbrace < b.rbrace) := by
    rw [List.filter_filter]
    refine List.filter_congr fun d _ => ?_
    rw [Bool.eq_iff_iff, Bool.and_eq_true, decide_eq_true_eq, decide_eq_true_eq]
    omega
  have hin : ∀ d ∈ done.filter (·.lbrace < c.rbrace), d ∈ done ∧ d.rbrace ≤ c.rbrace := fun d hd =>
    have hmem := List.mem_filter.mp hd
    ⟨hmem.1, Nat.le_of_lt (rbrace_lt_of_around hsplit hc hmem.1 (of_decide_eq_true hmem.2))⟩
  have hout : ∀ d ∈ done.filter (·.lbrace < c.rbrace), d.rbrace < b.rbrace ∨ b.rbrace < d.lbrace :=
    fun d hd => (hlam.head (hin d hd).1).2
  have hinner := (List.filter_sublist (p := (·.lbrace < c.rbrace)).cons_cons b).trans
    (sublist_of_split hsplit)
  have hdone := (List.sublist_cons_self b _).trans hinner
  have hturn := filledBefore_turn answer hsplit
  have hold := within_fills_cut answer hdone (Nat.zero_le b.rbrace) (Nat.le_of_lt hbc)
    (fun d hd => ⟨Nat.zero_le _, (hin d hd).2⟩) hout
  have hnew := within_fills_cons answer (i := 0) (j := c.rbrace) hinner fun d hd => by
    rcases List.mem_cons.mp hd with rfl | hd
    · exact ⟨Nat.zero_le _, Nat.le_of_lt hbc⟩
    · exact ⟨Nat.zero_le _, (hin d hd).2⟩
  obtain ⟨rest, hrest⟩ := exists_within_fills_eq_cons answer (j := c.rbrace)
    (List.filter_sublist (p := (b.rbrace < ·.lbrace)).trans hdone)
    (getElem?_rbrace (mem_of_split hsplit)).1 hbc fun d hd =>
      have hmem := List.mem_filter.mp hd
      ⟨Nat.le_of_lt (of_decide_eq_true hmem.2), (hin d hmem.1).2⟩
  rw [filledBefore] at hturn
  rw [hbefore, hturn, hrest] at hold
  rw [hrest, ← hkeep] at hnew
  exact ⟨_, rest, hold, hnew⟩

theorem filledBefore_apart {bs : List Block} {r : Nat} (h : ∀ d ∈ bs, r ≤ d.lbrace) :
    filledBefore answer t bs r = t.between 0 r := by
  have hnone : bs.filter (·.lbrace < r) = [] := by
    rw [List.filter_eq_nil_iff]
    intro d hd
    have := h d hd
    simp only [decide_eq_true_eq]
    omega
  rw [filledBefore, hnone]
  rfl

theorem follow_placed (hsplit : messageBlocks t = front ++ b :: done) (hc : c ∈ front) :
    (b.placed answer t done).follow (filledBody answer t b).length (answer b).text.length
      (c.placed answer t done) = c.placed answer t (b :: done) := by
  have hall := hsplit ▸ laminar_messageBlocks t
  have hlam := laminar_of_split hsplit
  have hlen := rbrace_lt_length (mem_of_split hsplit)
  have hlt : b.bodyStart ≤ b.rbrace := hlam.lbrace_lt b (by simp)
  have hbody : b.bodyStart = b.lbrace + 1 := rfl
  have hfront := length_between_bodyStart (mem_of_split hsplit)
  rw [placed_turn answer hsplit, Block.follow]
  rcases ((List.pairwise_append.mp hall.pairwise).2.2 c hc b (by simp)).2 with hbc | hcb
  · obtain ⟨x, rest, hold, hnew⟩ := filledBefore_around answer hsplit hc hbc
    rw [Block.placed, Block.placed, hold, hnew]
    simp only [List.length_append, List.length_cons, hfront]
    rw [if_pos (by omega)]
    congr 1
    omega
  · have hbehind : ∀ d ∈ b :: done, c.rbrace ≤ d.lbrace := by
      intro d hd
      rcases List.mem_cons.mp hd with rfl | hd
      · exact Nat.le_of_lt hcb
      · have := (hlam.head hd).1
        omega
    rw [Block.placed, Block.placed, filledBefore_apart answer hbehind,
      filledBefore_apart answer fun d hd => hbehind d (by simp [hd])]
    rw [Bytes.length_between (by omega), if_neg (by simp; omega)]

end

section
variable {σ : Type} {answer : Block → Rewrite} {t : Bytes}

theorem passFrom_filled (rewriter : Rewriter σ) (hstart : BodiesStart t) {todo done : List Block}
    (hsplit : messageBlocks t = todo.reverse ++ done) {state : σ}
    (hanswers : rewriter.answers state (todo.map (filledBody answer t)) = todo.map answer)
    {place : Block → Block} (hplace : ∀ c ∈ todo, place c = c.placed answer t done) :
    passFrom .tracked rewriter place state (filledText answer t done) todo =
      (filledText answer t (messageBlocks t), todo.map (Block.turn answer t)) := by
  induction todo generalizing done state place with
  | nil => rw [hsplit]; rfl
  | cons b todo ih =>
    rw [List.reverse_cons, List.append_assoc, List.singleton_append] at hsplit
    obtain ⟨hanswer, hlater⟩ := List.cons.inj hanswers
    have hb := hplace b (by simp)
    have hfollow : ∀ c ∈ todo, ((b.placed answer t done).follow (filledBody answer t b).length
        (answer b).text.length ∘ place) c = c.placed answer t (b :: done) := by
      intro c hc
      rw [Function.comp_apply, hplace c (by simp [hc])]
      exact follow_placed answer hsplit (List.mem_reverse.mpr hc)
    have hrest := ih hsplit hlater hfollow
    rw [placed_turn answer hsplit] at hb hrest
    rw [passFrom]
    simp only [hb, Block.bodyStart]
    rw [← Block.bodyStart, slice?_turn answer hsplit hstart]
    simp only [hanswer, splice_turn answer hsplit, hrest]
    rfl

/-- The answers of a rewriter to the filled bodies exist: a body is filled with the answers to the
blocks in it, and these have their turns before it. -/
theorem exists_answers (rewriter : Rewriter σ) (t : Bytes) {todo done : List Block}
    (hsplit : messageBlocks t = todo.reverse ++ done) (state : σ) (given : Block → Rewrite) :
    ∃ answer, (∀ c ∈ done, answer c = given c) ∧
      rewriter.answers state (todo.map (filledBody answer t)) = todo.map answer := by
  induction todo generalizing done state given with
  | nil => exact ⟨given, fun _ _ => rfl, rfl⟩
  | cons b todo ih =>
    rw [List.reverse_cons, List.append_assoc, List.singleton_append] at hsplit
    obtain ⟨answer, hkept, hanswers⟩ := ih hsplit (rewriter state (filledBody given t b)).2
      (Function.update given b (rewriter state (filledBody given t b)).1)
    have hdone : ∀ c ∈ done, answer c = given c := by
      intro c hc
      have hne : c ≠ b := fun h => by
        have := ((laminar_of_split hsplit).head hc).1
        rw [h] at this
        exact Nat.lt_irrefl _ this
      rw [hkept c (by simp [hc]), Function.update_of_ne hne]
    have hbody : filledBody answer t b = filledBody given t b :=
      filledBody_congr answer fun c hc hin => hdone c (mem_of_contains hsplit hc hin)
    refine ⟨answer, hdone, ?_⟩
    rw [List.map_cons, List.map_cons, hbody, Rewriter.answers, hanswers, hkept b (by simp),
      Function.update_self]

theorem rewriteMessages_filled (rewriter : Rewriter σ) (hstart : BodiesStart t) {state : σ}
    (hanswers : rewriter.answers state ((messageBlocks t).reverse.map (filledBody answer t)) =
      (messageBlocks t).reverse.map answer) :
    rewriteMessages .tracked rewriter state t =
      ⟨filledText answer t (messageBlocks t), (messageBlocks t).reverse.map (Block.turn answer t)⟩ := by
  have hnone : filledText answer t [] = t := by
    rw [filledText, fills, outermost]
    exact List.take_length
  have hplace : ∀ c ∈ (messageBlocks t).reverse, id c = c.placed answer t [] := by
    intro c hc
    have hlen := rbrace_lt_length (List.mem_reverse.mp hc)
    rw [Block.placed, filledBefore_apart answer (by simp), Bytes.length_between (by omega)]
    rfl
  have hsplit : messageBlocks t = (messageBlocks t).reverse.reverse ++ [] := by
    rw [List.reverse_reverse, List.append_nil]
  have hpass := passFrom_filled rewriter hstart hsplit hanswers hplace
  rw [hnone] at hpass
  rw [rewriteMessages, hpass]

end

/-- Whatever the rewriter answers, a pass with tracked offsets is the rewriting of the nested blocks
from the inside out: it calls the rewriter once for each block, the last opening brace first; each
call is given the body of its block, with the bodies of the blocks directly in it replaced by the
answers to these; and the text becomes the one with the bodies of the outermost blocks replaced by
their answers. The counts of the answers are added up, and their sum is exact as long as it stays
below `2 ^ 64`. -/
theorem rewriteMessages_tracked {σ : Type} (rewriter : Rewriter σ) (state : σ) {t : Bytes}
    (hv : Utf8.isValid t = true) : ∃ answer : Block → Rewrite,
    let o := rewriteMessages .tracked rewriter state t
    let calls := (messageBlocks t).reverse
    (calls.Pairwise fun b c => c.lbrace < b.lbrace) ∧
    o.bodies = calls.map (filledBody answer t) ∧
    rewriter.answers state o.bodies = calls.map answer ∧
    o.text = filledText answer t (messageBlocks t) ∧
    o.skipped = 0 ∧
    o.fields = (calls.map fun b => (answer b).fields).sum ∧
    o.fields.toNat = (calls.map fun b => (answer b).fields.toNat).sum % 2 ^ 64 ∧
    o.rewritten = calls.countP (fun b => (answer b).text != filledBody answer t b) ∧
    (o.changed = true ↔ 0 < o.rewritten) := by
  have hsplit : messageBlocks t = (messageBlocks t).reverse.reverse ++ [] := by
    rw [List.reverse_reverse, List.append_nil]
  obtain ⟨answer, -, hanswers⟩ := exists_answers rewriter t hsplit state fun _ => ⟨[], 0⟩
  refine ⟨answer, List.pairwise_reverse.mpr (pairwise_messageBlocks t), ?_⟩
  rw [rewriteMessages_filled rewriter (bodiesStart_of_isValid hv) hanswers]
  generalize (messageBlocks t).reverse = calls at hanswers
  have hbodies : (calls.map (Block.turn answer t)).filterMap Step.body? =
      calls.map (filledBody answer t) := by
    rw [List.filterMap_map]
    exact congrFun List.filterMap_eq_map calls
  have hfields : Outcome.fields ⟨filledText answer t (messageBlocks t),
      calls.map (Block.turn answer t)⟩ = (calls.map fun b => (answer b).fields).sum := by
    rw [Outcome.fields_eq_sum, List.map_map]
    rfl
  refine ⟨hbodies, ?_, rfl, ?_, hfields, ?_, ?_, decide_eq_true_iff⟩
  · rw [Outcome.bodies, hbodies, hanswers]
  · rw [Outcome.skipped, List.countP_map, List.countP_eq_zero]
    exact fun b _ => Bool.false_ne_true
  · rw [hfields, toNat_sum, List.map_map]
    rfl
  · rw [Outcome.rewritten, List.countP_map]
    rfl

/-- The inner message is answered with braces. The counts 3 and `2 ^ 64 - 1` make 2. -/
theorem rewriteMessages_tracked_braces :
    let t := Ascii.word "message A { message B { b x = 7; } b y = 30; }"
    let o := rewriteMessages .tracked Rewriter.script
      [fun _ => ⟨Ascii.word "\x7d \x7b", 3⟩, fun body => ⟨body, 0xFFFFFFFFFFFFFFFF⟩] t
    ∃ answer : Block → Rewrite, o.text = filledText answer t (messageBlocks t) ∧
      (((messageBlocks t).reverse.map fun b => (answer b).fields).sum = 2) := by
  intro t o
  obtain ⟨answer, -, -, -, htext, -, hfields, -⟩ := rewriteMessages_tracked Rewriter.script
    [fun _ => ⟨Ascii.word "\x7d \x7b", 3⟩, fun body => ⟨body, 0xFFFFFFFFFFFFFFFF⟩] (t := t)
    (by decide +kernel)
  exact ⟨answer, htext, hfields.symm.trans (by decide +kernel)⟩

end FieldTags
