import FieldTags.Proofs.Document.Places
import FieldTags.Proofs.Message.Parts

/-! One document behind another. A pass over the middle of a longer text takes the steps that it takes on
its own, at offsets that count the text in front; so two documents whose messages do not reach over the
seam between them are rewritten independently. -/
namespace FieldTags
variable {σ : Type}

namespace Bytes
variable {s t u : Bytes} {i j : Nat}

theorem isBoundary_around (s u : Bytes) (h0 : 0 < i) (hi : i < t.length) :
    (s ++ t ++ u).isBoundary (s.length + i) = t.isBoundary i := by
  have hlt : s.length + i < (s ++ t).length := by
    rw [List.length_append]
    omega
  rw [isBoundary_append_left u hlt, isBoundary_append_right s t h0]

theorem between_around (s u : Bytes) (hj : j ≤ t.length) :
    (s ++ t ++ u).between (s.length + i) (s.length + j) = t.between i j := by
  rw [between, between, List.append_assoc, List.take_length_add_append,
    List.take_append_of_le_length hj, ← List.drop_drop, List.drop_left]

theorem slice?_around (s u : Bytes) (h0 : 0 < i) (hij : i ≤ j) (hj : j < t.length) :
    (s ++ t ++ u).slice? (s.length + i) (s.length + j) = t.slice? i j := by
  rw [slice?, slice?, isBoundary_around s u h0 (by omega), isBoundary_around s u (by omega) hj,
    between_around s u (Nat.le_of_lt hj)]
  simp only [Nat.add_le_add_iff_left]

theorem splice_around (s u new : Bytes) (hij : i ≤ j) (hj : j ≤ t.length) :
    (s ++ t ++ u).splice (s.length + i) (s.length + j) new = s ++ t.splice i j new ++ u := by
  rw [splice, splice, List.append_assoc s t u, List.take_length_add_append,
    List.take_append_of_le_length (by omega), List.drop_length_add_append,
    List.drop_append_of_le_length hj]
  simp only [List.append_assoc]

end Bytes

theorem Block.shift_zero : Block.shift 0 = id := by
  funext b
  simp [shift]

theorem Block.follow_shift (k : Nat) {edited : Block} {before : Nat} (h : before ≤ edited.rbrace)
    (after : Nat) (c : Block) :
    (edited.shift k).follow before after (c.shift k) = (edited.follow before after c).shift k := by
  have hlt : (edited.shift k).rbrace < (c.shift k).rbrace ↔ edited.rbrace < c.rbrace := by
    simp [shift]
  by_cases hin : edited.rbrace < c.rbrace
  · have hback : k + c.rbrace + after - before = k + (c.rbrace + after - before) := by omega
    rw [follow_around hin, follow_around (hlt.mpr hin)]
    simp [shift, hback]
  · rw [follow, follow, if_neg hin, if_neg (hin ∘ hlt.mp)]

/-- The step, taken with `k` more bytes in front of the text. -/
def Step.shift (k : Nat) : Step → Step
  | .skipped b => .skipped (b.shift k)
  | .handled b body answer => .handled (b.shift k) body answer

namespace Step
variable (k : Nat) (s : Step)

theorem shift_zero : shift 0 = id := by
  funext s
  cases s <;> simp [shift, Block.shift_zero]

@[simp] theorem body?_shift : (s.shift k).body? = s.body? := by
  cases s <;> rfl

@[simp] theorem rewritten_shift : (s.shift k).rewritten = s.rewritten := by
  cases s <;> rfl

@[simp] theorem fields_shift : (s.shift k).fields = s.fields := by
  cases s <;> rfl

end Step

namespace Stage
variable {rewriter : Rewriter σ} {g g' : Stage σ} {s u : Bytes} {b : Block} {todo : List Block}

/-- At `g'` a pass is to do between `s` and `u` what at `g` is to be done without them. The blocks that
end in `s` have not moved. -/
structure Around (s u : Bytes) (todo : List Block) (g g' : Stage σ) : Prop where
  text : g'.text = s ++ g.text ++ u
  state : g'.state = g.state
  place : ∀ b ∈ todo, g'.place (b.shift s.length) = (g.place b).shift s.length
  front : ∀ b : Block, b.rbrace < s.length → g'.place b = b

theorem Around.slice? (h : Around s u todo g g') (hl : Lies g todo) (hb : b ∈ todo) :
    g'.text.slice? (g'.place (b.shift s.length)).bodyStart (g'.place (b.shift s.length)).rbrace =
      g.text.slice? (g.place b).bodyStart (g.place b).rbrace := by
  have hstart : ((g.place b).shift s.length).bodyStart = s.length + (g.place b).bodyStart := rfl
  have hstop : ((g.place b).shift s.length).rbrace = s.length + (g.place b).rbrace := rfl
  rw [h.place b hb, h.text, hstart, hstop]
  exact Bytes.slice?_around s u (Nat.succ_pos _) (hl.stop b hb).1 (hl.lt_length hb)

theorem Around.step (h : Around s u todo g g') (hl : Lies g todo) (hb : b ∈ todo) :
    g'.step rewriter (b.shift s.length) = (g.step rewriter b).shift s.length := by
  rw [Stage.step, Stage.step, h.slice? hl hb, h.place b hb, h.state, hl.slice? hb]
  rfl

theorem Around.next (h : Around s u (b :: todo) g g') (hl : Lies g (b :: todo)) :
    Around s u todo (g.next .tracked rewriter b)
      (g'.next .tracked rewriter (b.shift s.length)) := by
  have hb : b ∈ b :: todo := List.mem_cons_self
  have hlt : (g.place b).bodyStart ≤ (g.place b).rbrace := (hl.stop b hb).1
  have hlen := Nat.le_of_lt (hl.lt_length hb)
  have hbody := hl.length_body hb
  rw [Stage.next, Stage.next, h.slice? hl hb, h.place b hb, h.state, hl.slice? hb]
  refine ⟨?_, rfl, fun c hc => ?_, fun c hc => ?_⟩
  · have hsplice := Bytes.splice_around s u (rewriter g.state
      (g.text.between (g.place b).bodyStart (g.place b).rbrace)).1.text hlt hlen
    simpa [h.text, Block.bodyStart, Block.shift, Nat.add_assoc] using hsplice
  · simp only [Offsets.place, Function.comp_apply, h.place c (List.mem_cons_of_mem b hc)]
    exact Block.follow_shift s.length (by omega) _ _
  · simp only [Offsets.place, Function.comp_apply, h.front c hc]
    exact Block.follow_before (Nat.lt_of_lt_of_le hc (Nat.le_add_right _ _))

theorem Around.foldl (h : Around s u todo g g') (rewriter : Rewriter σ) (hl : Lies g todo) :
    Around s u [] (todo.foldl (Stage.next .tracked rewriter) g)
      ((todo.map (Block.shift s.length)).foldl (Stage.next .tracked rewriter) g') := by
  induction todo generalizing g g' with
  | nil => exact h
  | cons b todo ih => exact ih (h.next hl) hl.next

theorem Around.pass (h : Around s u todo g g') (rewriter : Rewriter σ) (hl : Lies g todo) :
    g'.pass .tracked rewriter (todo.map (Block.shift s.length)) =
      let alone := g.pass .tracked rewriter todo
      ⟨s ++ alone.text ++ u, alone.steps.map (Step.shift s.length)⟩ := by
  induction todo generalizing g g' with
  | nil => exact congrArg (Outcome.mk · []) h.text
  | cons b todo ih =>
    rw [List.map_cons, pass_cons, pass_cons, h.step hl List.mem_cons_self, ih (h.next hl) hl.next]
    rfl

theorem text_pass (offsets : Offsets) (g : Stage σ) (bs : List Block) :
    (g.pass offsets rewriter bs).text = (bs.foldl (Stage.next offsets rewriter) g).text := by
  induction bs generalizing g with
  | nil => rfl
  | cons b bs ih =>
    rw [pass_cons, List.foldl_cons]
    exact ih _

end Stage

section
variable {s t : Bytes} (rewriter : Rewriter σ) (state : σ)

theorem around_first (s t : Bytes) (todo : List Block) :
    Stage.Around s [] todo ⟨id, state, t⟩ ⟨id, state, s ++ t⟩ :=
  ⟨(List.append_nil _).symm, rfl, fun _ _ => rfl, fun _ _ => rfl⟩

theorem around_seam (hsecond : BodiesStart t) :
    let last := (messageBlocks t).reverse.foldl (Stage.next .tracked rewriter) ⟨id, state, t⟩
    Stage.Around [] last.text (messageBlocks s).reverse ⟨id, last.state, s⟩
      (((messageBlocks t).reverse.map (Block.shift s.length)).foldl (Stage.next .tracked rewriter)
        ⟨id, state, s ++ t⟩) := by
  have hseam := (around_first state s t _).foldl rewriter (Stage.lies_first hsecond state)
  refine ⟨by rw [hseam.text, List.append_nil, List.nil_append], hseam.state, fun b hb => ?_,
    fun b hb => absurd hb (Nat.not_lt_zero _)⟩
  have hlt := (List.getElem?_eq_some_iff.mp (getElem?_rbrace (List.mem_reverse.mp hb)).1).1
  rw [List.length_nil, Block.shift_zero]
  exact hseam.front b hlt

/-- The messages behind the seam have their turns first; those in front of it follow, on the text as it
was and with the state that the rewriter then has. -/
theorem rewriteMessages_append (hs : Parted s) (ht : Utf8.trailing t = 0) (hmatched : Matched s)
    (hfirst : BodiesStart s) (hsecond : BodiesStart t) :
    rewriteMessages .tracked rewriter state (s ++ t) =
      let second := rewriteMessages .tracked rewriter state t
      let first := rewriteMessages .tracked rewriter ((messageBlocks t).reverse.foldl
        (Stage.next .tracked rewriter) ⟨id, state, t⟩).state s
      ⟨first.text ++ second.text, second.steps.map (Step.shift s.length) ++ first.steps⟩ := by
  have hblocks : (messageBlocks (s ++ t)).reverse =
      (messageBlocks t).reverse.map (Block.shift s.length) ++ (messageBlocks s).reverse := by
    rw [messageBlocks_append hs ht hmatched, List.reverse_append, List.map_reverse]
  have hbehind := (around_first state s t _).pass rewriter (Stage.lies_first hsecond state)
  have hfront := (around_seam rewriter state hsecond).pass rewriter (Stage.lies_first hfirst _)
  simp only [List.length_nil, Block.shift_zero, Step.shift_zero, List.map_id, List.nil_append,
    ← Stage.text_pass] at hfront
  calc rewriteMessages .tracked rewriter state (s ++ t)
      = Stage.pass .tracked rewriter ⟨id, state, s ++ t⟩ ((messageBlocks t).reverse.map
          (Block.shift s.length) ++ (messageBlocks s).reverse) := by rw [← hblocks]; rfl
    _ = _ := by rw [Stage.pass_append, hbehind, hfront]; rfl
end

theorem Outcome.counts_append (k : Nat) (text : Bytes) (first second : Outcome) :
    let both : Outcome := ⟨text, second.steps.map (Step.shift k) ++ first.steps⟩
    both.messages = first.messages + second.messages ∧
      both.rewritten = first.rewritten + second.rewritten ∧
      both.fields = first.fields + second.fields ∧ both.skipped = first.skipped + second.skipped := by
  have hrewritten : Step.rewritten ∘ Step.shift k = Step.rewritten := funext fun s => by simp
  have hfields : Step.fields ∘ Step.shift k = Step.fields := funext fun s => by simp
  have hskipped : (fun s : Step => s.body?.isNone) ∘ Step.shift k = fun s => s.body?.isNone :=
    funext fun s => by simp
  refine ⟨?_, ?_, ?_, ?_⟩
  · simp [messages, Nat.add_comm]
  · simp [rewritten, List.countP_map, hrewritten, Nat.add_comm]
  · simp only [fields_eq_sum, List.map_append, List.map_map, hfields]
    rw [List.sum_append, UInt64.add_comm]
  · simp [skipped, List.countP_map, hskipped, Nat.add_comm]

theorem Parted.of_rightBrace {s : Bytes} (hlast : s.getLast? = some Ascii.rightBrace)
    (hcode : (codeMask s).getLast? = some true) : Parted s := by
  obtain ⟨r, rfl⟩ := List.getLast?_eq_some_iff.mp hlast
  have hshows : (Mode.run .code r).shows Ascii.rightBrace none = true := by
    rw [getLast?_codeMask_concat] at hcode
    exact Option.some.inj hcode
  refine Parted.of_stop (by decide) (by decide) ?_
  rw [Mode.run_append]
  cases hrun : Mode.run .code r with
  | code | slash => rfl
  | _ => simp [hrun, Mode.shows] at hshows

instance (t : Bytes) : Decidable (Matched t) :=
  have hiff : Matched t ↔ ∀ h ∈ Head.all t, (codeMask t)[h.start]? = some true →
      (matchBrace t h.lbrace).isOk = true := by
    refine ⟨fun hm h hh hcode => ?_, fun hm h hh => ?_⟩
    · obtain ⟨stop, hstop⟩ := hm h ⟨hh, hcode⟩
      rw [hstop]
      rfl
    · have hok := hm h hh.1 hh.2
      cases hstop : matchBrace t h.lbrace with
      | ok stop => exact ⟨stop, rfl⟩
      | error e => simp [hstop, Except.isOk, Except.toBool] at hok
  decidable_of_iff' _ hiff

theorem toNat_fields_le {t : Bytes} (hv : Utf8.isValid t = true) :
    (renumberDocument .tracked t).fields.toNat ≤ t.length := by
  have hsettled := renumberDocument_settled (bodiesStart_of_isValid hv)
  rw [Outcome.fields_of_settled hsettled, List.map_reverse, List.sum_reverse, ← fieldTotal,
    UInt64.toNat_ofNat']
  exact Nat.le_trans (Nat.mod_le _ _) (fieldTotal_le t)

/-- Behind a closing brace that is code and that no message reaches over, a document goes on as one of
its own: the messages of the two are renumbered independently. -/
theorem renumberDocument_append {s t : Bytes} (hs : Utf8.isValid s = true)
    (ht : Utf8.isValid t = true) (hlast : s.getLast? = some Ascii.rightBrace)
    (hcode : (codeMask s).getLast? = some true) (hmatched : Matched s) :
    let both := renumberDocument .tracked (s ++ t)
    let first := renumberDocument .tracked s
    let second := renumberDocument .tracked t
    both.text = first.text ++ second.text ∧
      both.messages = first.messages + second.messages ∧
      both.rewritten = first.rewritten + second.rewritten ∧
      both.fields = first.fields + second.fields ∧
      first.fields.toNat + second.fields.toNat ≤ (s ++ t).length ∧
      both.skipped = first.skipped + second.skipped ∧
      both.changed = (first.changed || second.changed) := by
  have hboth := rewriteMessages_append (.pure renumber) () (Parted.of_rightBrace hlast hcode)
    (Utf8.trailing_of_isValid ht) hmatched (bodiesStart_of_isValid hs) (bodiesStart_of_isValid ht)
  have hcounts := Outcome.counts_append s.length (renumberDocument .tracked (s ++ t)).text
    (renumberDocument .tracked s) (renumberDocument .tracked t)
  have hsteps : (⟨(renumberDocument .tracked (s ++ t)).text,
      (renumberDocument .tracked t).steps.map (Step.shift s.length) ++
        (renumberDocument .tracked s).steps⟩ : Outcome) = renumberDocument .tracked (s ++ t) :=
    congrArg (Outcome.mk _) (congrArg Outcome.steps hboth).symm
  rw [hsteps] at hcounts
  obtain ⟨hmessages, hrewritten, hfields, hskipped⟩ := hcounts
  have hfew : (renumberDocument .tracked s).fields.toNat + (renumberDocument .tracked t).fields.toNat ≤
      (s ++ t).length := by
    rw [List.length_append]
    exact Nat.add_le_add (toNat_fields_le hs) (toNat_fields_le ht)
  refine ⟨congrArg Outcome.text hboth, hmessages, hrewritten, hfields, hfew, hskipped, ?_⟩
  rw [Bool.eq_iff_iff]
  simp only [Outcome.changed, hrewritten, Bool.or_eq_true, decide_eq_true_eq]
  omega

/-- A second document with a message that does not end and a brace too many. -/
theorem renumberDocument_append_loose :
    let s := Ascii.word "message A \x7b b x = 7; \x7d"
    let t := Ascii.word "\x7d message B \x7b a y = 2; \x7d message C \x7b c z = 9; \x22"
    (renumberDocument .tracked (s ++ t)).text =
      (renumberDocument .tracked s).text ++ (renumberDocument .tracked t).text := by
  refine (renumberDocument_append (by decide +kernel) (by decide +kernel) (by decide +kernel)
    (by decide +kernel) (by decide +kernel)).1

end FieldTags
