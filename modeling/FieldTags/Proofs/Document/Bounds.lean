import FieldTags.Proofs.Document.Places
import FieldTags.Proofs.Field.Place
import FieldTags.Proofs.Lexical.Stepping

/-! The offsets at which texts are read and cut. In a valid text all of them lie in the text and between
two of its characters, and a pass leaves the text valid; so no read and no cut can fail. -/
namespace FieldTags

/-- A byte of the text that is a character of its own. -/
def Bytes.Cuts (t : Bytes) (i : Nat) : Prop :=
  i < t.length ∧ t.isBoundary i = true ∧ t.isBoundary (i + 1) = true

theorem Bytes.cuts_of_ascii {t : Bytes} (hv : Utf8.isValid t = true) {i : Nat} {b : UInt8}
    (hb : t[i]? = some b) (ha : b < 0x80) : t.Cuts i :=
  ⟨(List.getElem?_eq_some_iff.mp hb).1, isBoundary_of_ascii hb ha,
    Utf8.isBoundary_succ_of_ascii hv hb ha⟩

theorem Mode.ascii_of_event? {m : Mode} {b : UInt8} {k : EventKind} (h : m.event? b = some k) :
    b < 0x80 := by
  by_contra hb
  have hne : ∀ c : UInt8, c < 0x80 → b ≠ c := fun c hc hbc => hb (hbc ▸ hc)
  have hl := hne Ascii.leftBrace (by decide)
  have hr := hne Ascii.rightBrace (by decide)
  have hs := hne Ascii.semicolon (by decide)
  have hn := hne Ascii.newline (by decide)
  have hslash := hne Ascii.slash (by decide)
  cases m <;> simp [event?, EventKind.inCode?, hl, hr, hs, hn, hslash] at h

/-- The events of a text that is read from any offset on, even from inside a character. -/
theorem cuts_of_mem_eventsAt {t : Bytes} (hv : Utf8.isValid t = true) {start : Nat} {e : Event}
    (he : e ∈ eventsAt t start) : t.Cuts e.offset := by
  obtain ⟨i, b, hb, hoffset, hk⟩ := mem_eventsFrom.mp he
  rw [List.getElem?_drop, ← hoffset] at hb
  exact Bytes.cuts_of_ascii hv hb (Mode.ascii_of_event? hk)

theorem isBoundary_of_mem_statementStarts {t : Bytes} (hv : Utf8.isValid t = true) {i : Nat}
    (hi : i ∈ statementStarts t) : t.isBoundary i = true := by
  rcases List.mem_cons.mp hi with rfl | hi
  · simp [Bytes.isBoundary]
  · obtain ⟨e, he, rfl⟩ := List.mem_map.mp (List.mem_filter.mp hi).1
    exact (cuts_of_mem_eventsAt hv he).2.2

/-- The search for the closing brace with a depth that has nothing below 0: none where a block would be
closed that was not opened. -/
def countBack? (depth : Nat) : List Event → Option (Option Nat)
  | [] => some none
  | e :: es =>
    match e.kind with
    | .openBrace => countBack? (depth + 1) es
    | .closeBrace =>
      if depth = 0 then none
      else if depth - 1 = 0 then some (some e.offset)
      else countBack? (depth - 1) es
    | _ => countBack? depth es

theorem countBack?_succ (depth : Nat) (es : List Event) :
    countBack? (depth + 1) es = some (closing? (depth + 1) es) := by
  induction es generalizing depth with
  | nil => rfl
  | cons e es ih =>
    rw [countBack?, closing?]
    cases e.kind with
    | closeBrace =>
      cases depth with
      | zero => rfl
      | succ depth => simpa using ih depth
    | openBrace => exact ih (depth + 1)
    | semicolon | lineBreak | commentEnd => exact ih depth

/-- A search that begins at an opening brace never closes too many blocks. -/
theorem countBack?_of_leftBrace {t : Bytes} {i : Nat} (h : t[i]? = some Ascii.leftBrace) :
    countBack? 0 (eventsAt t i) = some (closing? 0 (eventsAt t i)) := by
  rw [eventsAt_of_leftBrace h]
  exact countBack?_succ 0 _

theorem TagPlace.isBoundary {t : Bytes} {start stop : Nat} (h : TagPlace t start stop) :
    t.isBoundary start = true ∧ t.isBoundary stop = true := by
  obtain ⟨b, hb, hdigit⟩ := h.getElem?_start
  obtain ⟨gap, c, hgap, hc, rest, hrest⟩ := h.behind
  have hstop : ∃ d, t[stop]? = some d ∧ d < 0x80 := by
    rw [← Nat.add_zero stop, ← List.getElem?_drop, ← hrest]
    cases gap with
    | nil =>
      refine ⟨c, rfl, ?_⟩
      cases hc with
      | inl hbracket => rw [hbracket]; decide
      | inr hsemi => rw [hsemi]; decide
    | cons d gap => exact ⟨d, rfl, Ascii.ascii_of_isGap (hgap d (by simp))⟩
  obtain ⟨d, hd, hsmall⟩ := hstop
  exact ⟨Bytes.isBoundary_of_ascii hb (Pieces.ascii_of_isDigit hdigit),
    Bytes.isBoundary_of_ascii hd hsmall⟩

def Edit.cutFrom? (t : Bytes) (last : Nat) : List Edit → Option Bytes
  | [] => t.slice? last t.length
  | e :: es => do
    let kept ← t.slice? last e.start
    let rest ← cutFrom? t e.stop es
    pure (kept ++ e.text ++ rest)

theorem Edit.cutFrom?_eq {t : Bytes} {es : List Edit} {last : Nat} (hlast : t.isBoundary last = true)
    (h : Ascending last t.length es)
    (hcuts : ∀ e ∈ es, t.isBoundary e.start = true ∧ t.isBoundary e.stop = true) :
    cutFrom? t last es = some (applyFrom last es (t.drop last)) := by
  induction es generalizing last with
  | nil =>
    rw [cutFrom?, Bytes.slice?_eq_some (Bytes.le_length_of_isBoundary hlast) hlast
      (Bytes.isBoundary_length t), Bytes.between, List.take_length]
    rfl
  | cons e es ih =>
    obtain ⟨hle, hlt, -, hes⟩ := h
    obtain ⟨⟨hstart, hstop⟩, hrest⟩ := List.forall_mem_cons.mp hcuts
    have hdrop : (t.drop last).drop (e.stop - last) = t.drop e.stop := by
      rw [List.drop_drop, Nat.add_sub_cancel' (by omega)]
    have htake : (t.drop last).take (e.start - last) = t.between last e.start := List.drop_take.symm
    rw [cutFrom?, Bytes.slice?_eq_some hle hlast hstart, ih hstop hes hrest, applyFrom, hdrop, htake]
    rfl

theorem Edit.isValid_of_cutFrom? {t out : Bytes} (hv : Utf8.isValid t = true) {es : List Edit}
    (hes : ∀ e ∈ es, Utf8.isValid e.text = true) {last : Nat} (h : cutFrom? t last es = some out) :
    Utf8.isValid out = true := by
  induction es generalizing last out with
  | nil => exact (Utf8.isValid_of_slice? hv h).1
  | cons e es ih =>
    obtain ⟨hnew, hrest⟩ := List.forall_mem_cons.mp hes
    obtain ⟨kept, hkept, h⟩ := Option.bind_eq_some_iff.mp h
    obtain ⟨rest, hlater, h⟩ := Option.bind_eq_some_iff.mp h
    rw [← Option.some.inj h]
    exact Utf8.isValid_append
      (Utf8.isValid_append (Utf8.isValid_of_slice? hv hkept).1 hnew) (ih hrest hlater)

theorem cutFrom?_retag {t : Bytes} :
    Edit.cutFrom? t 0 (retag (fields t)) = some (renumberBody t) := by
  refine Edit.cutFrom?_eq (by simp [Bytes.isBoundary]) (ascending_retag t) fun e he => ?_
  exact (isRetag_of_mem_retag he).place.isBoundary

theorem Utf8.isValid_renumberBody {t : Bytes} (hv : isValid t = true) :
    isValid (renumberBody t) = true := by
  refine Edit.isValid_of_cutFrom? hv (fun e he => ?_) cutFrom?_retag
  obtain ⟨n, -, htext⟩ := (isRetag_of_mem_retag he).positive
  rw [htext]
  exact isValid_of_ascii fun b hb => Pieces.ascii_of_isDigit ((Ascii.isNumber_decimal n).2 b hb)

/-- Where a text is read and cut. -/
structure Bytes.Sound (t : Bytes) : Prop where
  stepped : ∀ start, stepEvents? t .code start = some (eventsAt t start)
  masked : stepMask? t .code 0 (List.replicate t.length false) = some (codeMask t)
  events : ∀ start, ∀ e ∈ eventsAt t start, t.Cuts e.offset
  starts : ∀ i ∈ statementStarts t, t.slice? i t.length = some (t.drop i)
  heads : ∀ h ∈ Head.all t, h.start < (codeMask t).length ∧ h.start < h.lbrace ∧
    t.Cuts h.start ∧ t.Cuts h.lbrace
  depth : ∀ i, t[i]? = some Ascii.leftBrace →
    countBack? 0 (eventsAt t i) = some (closing? 0 (eventsAt t i))
  blocks : ∀ b ∈ messageBlocks t, b.lbrace < b.rbrace ∧ t.Cuts b.lbrace ∧ t.Cuts b.rbrace
  tags : ∀ f ∈ fields t, f.start ≤ f.tagStart ∧ f.tagStart < f.tagStop ∧ f.tagStop < f.stop ∧
    f.stop ≤ t.length ∧ t.isBoundary f.start = true ∧ t.isBoundary f.tagStart = true ∧
    t.isBoundary f.tagStop = true ∧ t.isBoundary f.stop = true
  retagged : Edit.cutFrom? t 0 (retag (fields t)) = some (renumberBody t)

theorem Bytes.sound_of_isValid {t : Bytes} (hv : Utf8.isValid t = true) : t.Sound where
  stepped start := stepEvents?_eq t .code start
  masked := stepMask?_eq List.length_replicate
  events _ _ he := cuts_of_mem_eventsAt hv he
  starts i hi := by
    have hstart := isBoundary_of_mem_statementStarts hv hi
    rw [slice?_eq_some (le_length_of_isBoundary hstart) hstart (isBoundary_length t), between,
      List.take_length]
  heads h hh := by
    have hstart := Head.getElem?_start hh
    obtain ⟨s, -, -, hlbrace, hpos, -, -⟩ := Head.exists_of_mem_all hh
    refine ⟨?_, by omega, cuts_of_ascii hv hstart (by decide),
      cuts_of_ascii hv (Head.getElem?_lbrace hh) (by decide)⟩
    rw [length_codeMask]
    exact (List.getElem?_eq_some_iff.mp hstart).1
  depth _ := countBack?_of_leftBrace
  blocks b hb := by
    obtain ⟨hrbrace, hlt⟩ := getElem?_rbrace hb
    obtain ⟨h, hh, -, hl, -⟩ := mem_messageBlocks.mp hb
    refine ⟨hlt, ?_, cuts_of_ascii hv hrbrace (by decide)⟩
    rw [hl]
    exact cuts_of_ascii hv (Head.getElem?_lbrace hh) (by decide)
  tags f hf := by
    obtain ⟨-, hstart, hstop, hsemi⟩ := Field.tag_of_mem hf
    obtain ⟨-, hmem, -, -⟩ := mem_fieldsFrom hf
    obtain ⟨e, he, hestart, hestop⟩ := exists_mem_retag hf
    have htag := (isRetag_of_mem_retag he).place.isBoundary
    have hcut := cuts_of_ascii hv hsemi (by decide)
    have hback : f.stop - 1 + 1 = f.stop := by omega
    rw [Cuts, hback] at hcut
    rw [hestart, hestop] at htag
    refine ⟨Nat.le_add_right _ _, hstart, hstop, by omega,
      isBoundary_of_mem_statementStarts hv hmem, htag.1, htag.2, hcut.2.2⟩
  retagged := cutFrom?_retag

/-- A rewriter that answers valid texts with valid texts. -/
def Rewriter.Valid {σ : Type} (rewriter : Rewriter σ) : Prop :=
  ∀ state body, Utf8.isValid body = true → Utf8.isValid (rewriter state body).1.text = true

theorem Rewriter.valid_renumber : (Rewriter.pure renumber).Valid :=
  fun _ _ hbody => Utf8.isValid_renumberBody hbody

namespace Stage
variable {σ : Type} {rewriter : Rewriter σ} {offsets : Offsets} {g : Stage σ}

theorem isValid_next (hr : rewriter.Valid) (hg : Utf8.isValid g.text = true) (b : Block) :
    Utf8.isValid (g.next offsets rewriter b).text = true := by
  rw [next]
  cases hbody : g.text.slice? (g.place b).bodyStart (g.place b).rbrace with
  | none => exact hg
  | some body =>
    obtain ⟨hvalid, hsplice⟩ := Utf8.isValid_of_slice? hg hbody
    exact hsplice _ (hr _ _ hvalid)

theorem isValid_foldl (hr : rewriter.Valid) (hg : Utf8.isValid g.text = true) (done : List Block) :
    Utf8.isValid (done.foldl (next offsets rewriter) g).text = true := by
  induction done generalizing g with
  | nil => exact hg
  | cons b done ih => exact ih (isValid_next hr hg b)

theorem Lies.handled {todo : List Block} (h : Lies g todo) (rewriter : Rewriter σ) :
    ∀ s ∈ (g.pass .tracked rewriter todo).steps, s.body?.isSome = true := by
  induction todo generalizing g with
  | nil => exact fun s hs => absurd hs List.not_mem_nil
  | cons b todo ih =>
    rw [pass_cons]
    refine List.forall_mem_cons.mpr ⟨?_, ih h.next⟩
    rw [step, h.slice? List.mem_cons_self]
    rfl

theorem Lies.rbrace_next {b c : Block} {todo : List Block} (h : Lies g (b :: todo)) :
    let body := g.text.between (g.place b).bodyStart (g.place b).rbrace
    let new := (rewriter g.state body).1.text
    (((g.next .tracked rewriter b).place c).rbrace : Int) = (g.place c).rbrace +
      if (g.place b).rbrace < (g.place c).rbrace then (new.length : Int) - body.length else 0 := by
  have hb : b ∈ b :: todo := List.mem_cons_self
  have hbody := h.length_body hb
  simp only [h.place_next rewriter hb, hbody, Block.rbrace_follow]
  split <;> omega

end Stage

/-- In a pass over a valid text, whatever the rewriter answers, every text that is read is valid, and it
is read and cut at offsets that it has. With tracked offsets the blocks that are to come also keep their
bodies in the text: no closing brace is moved below its opening brace, behind the text or into a
character, and no block is skipped. -/
theorem rewriteMessages_sound {σ : Type} {rewriter : Rewriter σ} (hr : rewriter.Valid) (state : σ)
    {t : Bytes} (hv : Utf8.isValid t = true) :
    t.Sound ∧
    (∀ (offsets : Offsets) (done : List Block) (b : Block) (todo : List Block),
      (messageBlocks t).reverse = done ++ b :: todo →
      let g := done.foldl (Stage.next offsets rewriter) ⟨id, state, t⟩
      g.text.Sound ∧ ∀ body, g.text.slice? (g.place b).bodyStart (g.place b).rbrace = some body →
        body.Sound ∧ (g.place b).bodyStart ≤ (g.place b).rbrace ∧
        (g.place b).rbrace ≤ g.text.length ∧ g.text.isBoundary (g.place b).bodyStart = true ∧
        g.text.isBoundary (g.place b).rbrace = true) ∧
    (∀ (done : List Block) (b : Block) (todo : List Block),
      (messageBlocks t).reverse = done ++ b :: todo →
      let g := done.foldl (Stage.next .tracked rewriter) ⟨id, state, t⟩
      let body := g.text.between (g.place b).bodyStart (g.place b).rbrace
      let new := (rewriter g.state body).1.text
      (∀ c ∈ b :: todo, (g.place c).lbrace < (g.place c).rbrace ∧
        (g.place c).rbrace < g.text.length ∧ g.text.isBoundary (g.place c).bodyStart = true ∧
        g.text.isBoundary (g.place c).rbrace = true) ∧
      ∀ c ∈ todo, (((g.next .tracked rewriter b).place c).rbrace : Int) = (g.place c).rbrace +
        if (g.place b).rbrace < (g.place c).rbrace then (new.length : Int) - body.length else 0) ∧
    (rewriteMessages .tracked rewriter state t).skipped = 0 := by
  have hfirst := Stage.lies_first (bodiesStart_of_isValid hv) state
  refine ⟨Bytes.sound_of_isValid hv, fun offsets done b todo hsplit => ?_,
    fun done b todo hsplit => ?_, ?_⟩
  · have hg : Utf8.isValid (done.foldl (Stage.next offsets rewriter) ⟨id, state, t⟩).text = true :=
      Stage.isValid_foldl hr hv done
    refine ⟨Bytes.sound_of_isValid hg, fun body hbody => ?_⟩
    obtain ⟨⟨hle, hstart, hstop⟩, -⟩ := Bytes.slice?_eq_some_iff.mp hbody
    exact ⟨Bytes.sound_of_isValid (Utf8.isValid_of_slice? hg hbody).1, hle,
      Bytes.le_length_of_isBoundary hstop, hstart, hstop⟩
  · rw [hsplit] at hfirst
    have hlies := hfirst.foldl rewriter
    refine ⟨fun c hc => ?_, fun c _ => hlies.rbrace_next⟩
    exact ⟨(hlies.stop c hc).1, hlies.lt_length hc, hlies.start c hc, hlies.isBoundary_rbrace hc⟩
  · rw [Outcome.skipped, List.countP_eq_zero]
    intro s hs
    have hsome := hfirst.handled rewriter s hs
    simp [Option.isSome_iff_ne_none.mp hsome]

/-- A rewriter that empties the bodies, on a text with characters of several bytes. -/
theorem rewriteMessages_sound_emptied :
    (rewriteMessages .tracked (.pure fun _ => ⟨[], 0⟩) () (Bytes.ofString
      "message A \x7b string é = 7; message B \x7b \x22\\é\x22 \x7d \x7d")).skipped = 0 := by
  have hvalid : Utf8.isValid (Bytes.ofString
      "message A \x7b string é = 7; message B \x7b \x22\\é\x22 \x7d \x7d") = true := by
    decide +kernel
  have hrewriter : (Rewriter.pure fun _ => ⟨[], 0⟩).Valid := fun _ _ _ => rfl
  exact (rewriteMessages_sound hrewriter () hvalid).2.2.2

end FieldTags
