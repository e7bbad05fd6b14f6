import FieldTags.Proofs.Lexical.Token

/-! The division of a text into tokens, each as long as possible, and what a scan of the text finds by
it: the code mask, the events and the statement starts. -/
namespace FieldTags

/-- A slash that opens no comment leaves a scan as it is in code. -/
theorem Mode.slash_eq_code {t : Bytes}
    (h : t.head? ≠ some Ascii.slash ∧ t.head? ≠ some Ascii.asterisk) :
    codeMaskFrom .slash t = codeMaskFrom .code t ∧
      (∀ position, eventsFrom .slash position t = eventsFrom .code position t) ∧
      (run .slash t).region = (run .code t).region := by
  cases t with
  | nil => exact ⟨rfl, fun _ => rfl, rfl⟩
  | cons b t =>
    have hs : b ≠ Ascii.slash := by simpa using h.1
    have ha : b ≠ Ascii.asterisk := by simpa using h.2
    have hnext : Mode.next .slash b = Mode.next .code b := by simp [next, hs, ha]
    have hshows : ∀ f, shows .slash b f = shows .code b f := by
      intro f
      simp [shows, hs, bne_iff_ne.mpr hs, bne_iff_ne.mpr ha]
    refine ⟨by rw [codeMaskFrom, codeMaskFrom, hnext, hshows], fun position => ?_, ?_⟩
    · rw [eventsFrom, eventsFrom, hnext]
      rfl
    · rw [run_cons, run_cons, hnext]

def EventKind.marks : List (EventKind × UInt8) :=
  [(.openBrace, Ascii.leftBrace), (.closeBrace, Ascii.rightBrace), (.semicolon, Ascii.semicolon),
    (.lineBreak, Ascii.newline)]

theorem EventKind.inCode?_eq_some_iff {b : UInt8} {kind : EventKind} :
    inCode? b = some kind ↔ (kind, b) ∈ marks := by
  by_cases hmark : b ∈ marks.map Prod.snd
  · simp only [marks, List.map_cons, List.map_nil, List.mem_cons, List.not_mem_nil, or_false]
      at hmark
    rcases hmark with rfl | rfl | rfl | rfl <;> cases kind <;> decide
  · have hnot : (kind, b) ∉ marks := fun h => hmark (List.mem_map_of_mem h)
    rw [iff_false_right hnot]
    simp only [marks, List.map_cons, List.map_nil, List.mem_cons, List.not_mem_nil, or_false,
      not_or] at hmark
    simp [inCode?, hmark]

namespace Token

def At (toks : List Token) (tok : Token) (i : Nat) : Prop :=
  ∃ front back, toks = front ++ tok :: back ∧ i = (front.flatMap text).length

theorem at_cons {tok other : Token} {toks : List Token} {i : Nat} :
    At (tok :: toks) other i ↔
      (other = tok ∧ i = 0) ∨ ∃ j, At toks other j ∧ i = tok.text.length + j := by
  constructor
  · rintro ⟨front, back, heq, rfl⟩
    cases front with
    | nil => exact .inl ⟨(List.cons_eq_cons.mp heq).1.symm, rfl⟩
    | cons first front =>
      obtain ⟨rfl, rfl⟩ := List.cons_eq_cons.mp heq
      exact .inr ⟨_, ⟨front, back, rfl, rfl⟩, by simp⟩
  · rintro (⟨rfl, rfl⟩ | ⟨_, ⟨front, back, rfl, rfl⟩, rfl⟩)
    · exact ⟨[], toks, rfl, rfl⟩
    · exact ⟨tok :: front, back, rfl, by simp⟩

section
variable {tok : Token} {rest : Bytes}

theorem Longest.mask (h : tok.Longest rest) : codeMaskFrom .code (tok.text ++ rest) =
    List.replicate tok.text.length tok.isPlain ++ codeMaskFrom .code rest := by
  cases hp : tok.isPlain with
  | false =>
    cases hc : tok.closed with
    | false =>
      obtain ⟨hout, rfl, -⟩ := h.1.outside_of_open hc
      rw [hout.mask]
      rfl
    | true =>
      obtain ⟨u, z, htext, hcloses⟩ := h.1.closes hp hc
      rw [htext, hcloses.mask, List.length_append, List.length_singleton]
  | true =>
    cases tok with
    | plain b =>
      obtain ⟨⟨hd, hq⟩, hslash⟩ := longest_plain_iff.mp h
      change Mode.shows .code b rest.head? :: codeMaskFrom (Mode.next .code b) rest = _
      by_cases hb : b = Ascii.slash
      · subst hb
        obtain ⟨hs, ha⟩ := hslash rfl
        have hshows : Mode.shows .code Ascii.slash rest.head? = true := by
          simp [Mode.shows, hs, ha]
        rw [hshows]
        exact congrArg _ (Mode.slash_eq_code ⟨hs, ha⟩).1
      · simp [Mode.shows, Mode.next, Mode.nextInCode, text, hb, hd, hq]
    | _ => exact absurd hp Bool.false_eq_true.mp

theorem Longest.events (h : tok.Longest rest) (position : Nat) :
    eventsFrom .code position (tok.text ++ rest) =
      (tok.event?.map (⟨·, position + tok.text.length - 1⟩)).toList ++
        eventsFrom .code (position + tok.text.length) rest := by
  cases hp : tok.isPlain with
  | false =>
    cases hc : tok.closed with
    | false =>
      obtain ⟨hout, rfl, hnone⟩ := h.1.outside_of_open hc
      rw [hnone, List.append_nil, hout.events]
      rfl
    | true =>
      obtain ⟨u, z, htext, hcloses⟩ := h.1.closes hp hc
      rw [htext, hcloses.events, List.length_append, List.length_singleton]
      rfl
  | true =>
    cases tok with
    | plain b =>
      obtain ⟨⟨hd, hq⟩, hslash⟩ := longest_plain_iff.mp h
      have hrest : eventsFrom (Mode.next .code b) (position + 1) rest =
          eventsFrom .code (position + 1) rest := by
        by_cases hb : b = Ascii.slash
        · subst hb
          exact (Mode.slash_eq_code (hslash rfl)).2.1 _
        · simp [Mode.next, Mode.nextInCode, hb, hd, hq]
      exact congrArg _ hrest
    | _ => exact absurd hp Bool.false_eq_true.mp

end
end Token

/-- The text is read as these tokens from its front on, each as long as possible. -/
inductive Division : List Token → Bytes → Prop
  | nil : Division [] []
  | cons {tok : Token} {toks : List Token} {rest : Bytes} (longest : tok.Longest rest)
    (division : Division toks rest) : Division (tok :: toks) (tok.text ++ rest)

theorem exists_division (t : Bytes) : ∃ toks, Division toks t := by
  induction hn : t.length using Nat.strong_induction_on generalizing t with
  | _ n ih =>
    cases t with
    | nil => exact ⟨[], .nil⟩
    | cons b u =>
      obtain ⟨tok, rest, hlongest, htext⟩ := Token.exists_longest b u
      have hpos := tok.length_text_pos
      rw [← htext, List.length_append] at hn
      obtain ⟨toks, htoks⟩ := ih rest.length (by omega) rest rfl
      rw [← htext]
      exact ⟨tok :: toks, .cons hlongest htoks⟩

namespace Division
open Token
variable {toks others : List Token} {t : Bytes}

theorem unique (h : Division toks t) (ho : Division others t) : others = toks := by
  induction h generalizing others with
  | nil =>
    generalize hempty : ([] : Bytes) = t at ho
    cases ho with
    | nil => rfl
    | @cons other others rest =>
      have := other.length_text_pos
      rw [(List.append_eq_nil_iff.mp hempty.symm).1] at this
      exact absurd this (Nat.lt_irrefl 0)
  | @cons tok toks rest hlongest _ ih =>
    generalize htext : tok.text ++ rest = t at ho
    cases ho with
    | nil =>
      have := tok.length_text_pos
      rw [(List.append_eq_nil_iff.mp htext).1] at this
      exact absurd this (Nat.lt_irrefl 0)
    | cons holongest hodivision =>
      obtain ⟨rfl, rfl⟩ := hlongest.unique holongest htext.symm
      rw [ih hodivision]

theorem text_eq (h : Division toks t) : t = toks.flatMap text := by
  induction h with
  | nil => rfl
  | cons _ _ ih => rw [ih, List.flatMap_cons]

theorem mask_eq (h : Division toks t) :
    codeMask t = toks.flatMap fun tok => List.replicate tok.text.length tok.isPlain := by
  induction h with
  | nil => rfl
  | cons hlongest _ ih => rw [codeMask, hlongest.mask, List.flatMap_cons, ← ih, codeMask]

theorem mem_eventsFrom_iff (h : Division toks t) (position : Nat) {e : Event} :
    e ∈ eventsFrom .code position t ↔ ∃ tok i, At toks tok i ∧ tok.event? = some e.kind ∧
      e.offset + 1 = position + i + tok.text.length := by
  induction h generalizing position with
  | nil => simp [eventsFrom, At]
  | @cons tok toks rest hlongest _ ih =>
    have hpos := tok.length_text_pos
    rw [hlongest.events, List.mem_append, ih]
    constructor
    · rintro (hhere | ⟨other, i, hat, hkind, hoffset⟩)
      · obtain ⟨kind, hkind, rfl⟩ : ∃ kind, tok.event? = some kind ∧
            ⟨kind, position + tok.text.length - 1⟩ = e := by
          simpa using hhere
        exact ⟨tok, 0, at_cons.mpr (.inl ⟨rfl, rfl⟩), hkind, by simp only; omega⟩
      · exact ⟨other, _, at_cons.mpr (.inr ⟨i, hat, rfl⟩), hkind, by omega⟩
    · rintro ⟨other, i, hat, hkind, hoffset⟩
      rcases at_cons.mp hat with ⟨rfl, rfl⟩ | ⟨j, hlater, rfl⟩
      · obtain ⟨kind, offset⟩ := e
        left
        have : offset = position + other.text.length - 1 := by
          simp only at hoffset
          omega
        simp [hkind, this]
      · exact .inr ⟨other, j, hlater, hkind, by omega⟩

theorem mem_events_iff (h : Division toks t) {kind : EventKind} {i : Nat} :
    ⟨kind, i⟩ ∈ events t ↔
      ∃ tok j, At toks tok j ∧ tok.event? = some kind ∧ i + 1 = j + tok.text.length := by
  have hiff : ⟨kind, i⟩ ∈ eventsFrom .code 0 t ↔ _ := h.mem_eventsFrom_iff 0
  simp only [Nat.zero_add] at hiff
  exact hiff

/-- The bytes that the mask shows are the plain ones. -/
theorem at_plain_iff (h : Division toks t) {b : UInt8} {i : Nat} :
    At toks (plain b) i ↔ t[i]? = some b ∧ (codeMask t)[i]? = some true := by
  induction h generalizing i with
  | nil => simp [At]
  | @cons tok toks rest hlongest _ ih =>
    have hpos := tok.length_text_pos
    rw [at_cons, codeMask, hlongest.mask]
    rcases Nat.lt_or_ge i tok.text.length with hin | hout
    · have hlater : ¬ ∃ j, At toks (plain b) j ∧ i = tok.text.length + j := by
        rintro ⟨j, -, rfl⟩
        omega
      rw [or_iff_left hlater, List.getElem?_append_left hin,
        List.getElem?_append_left (by simpa using hin), List.getElem?_replicate, if_pos hin]
      cases hp : tok.isPlain with
      | false =>
        have hne : plain b ≠ tok := by
          rintro rfl
          exact Bool.false_eq_true.mp hp.symm
        simp [hne]
      | true =>
        cases tok with
        | plain c =>
          obtain rfl : i = 0 := Nat.lt_one_iff.mp hin
          simp [text, eq_comm]
        | _ => exact absurd hp Bool.false_eq_true.mp
    · obtain ⟨j, rfl⟩ : ∃ j, i = tok.text.length + j := ⟨i - tok.text.length, by omega⟩
      have hmask : (List.replicate tok.text.length tok.isPlain ++ codeMaskFrom .code rest)[
          tok.text.length + j]? = (codeMask rest)[j]? := by
        rw [List.getElem?_append_right (by simp), List.length_replicate, Nat.add_sub_cancel_left]
        rfl
      rw [hmask, List.getElem?_append_right hout, Nat.add_sub_cancel_left, ← ih]
      constructor
      · rintro (⟨-, hzero⟩ | ⟨k, hat, hk⟩)
        · omega
        · rwa [Nat.add_left_cancel hk]
      · exact fun hat => .inr ⟨j, hat, rfl⟩

end Division

namespace Token
variable {tok : Token} {toks : List Token}

theorem event?_eq_lineBreak_iff :
    tok.event? = some .lineBreak ↔ tok = plain Ascii.newline ∨ ∃ s, tok = lineComment s true := by
  cases tok with
  | lineComment s closed => cases closed <;> simp [event?]
  | blockComment s closed => cases closed <;> simp [event?]
  | string q s closed => simp [event?]
  | plain b =>
    simp [event?, EventKind.inCode?_eq_some_iff, EventKind.marks]

theorem event?_eq_commentEnd_iff :
    tok.event? = some .commentEnd ↔ ∃ s, tok = blockComment s true := by
  cases tok with
  | lineComment s closed => cases closed <;> simp [event?]
  | blockComment s closed => cases closed <;> simp [event?]
  | string q s closed => simp [event?]
  | plain b =>
    simp [event?, EventKind.inCode?_eq_some_iff, EventKind.marks]

theorem event?_eq_mark_iff {kind : EventKind} (hline : kind ≠ .lineBreak)
    (hcomment : kind ≠ .commentEnd) :
    tok.event? = some kind ↔ ∃ b, (kind, b) ∈ EventKind.marks ∧ tok = plain b := by
  cases tok with
  | lineComment s closed => cases closed <;> simp [event?, hline.symm]
  | blockComment s closed => cases closed <;> simp [event?, hcomment.symm]
  | string q s closed => simp [event?]
  | plain b => simp [event?, EventKind.inCode?_eq_some_iff]

/-- The offset lies between two tokens or at an end of the text. -/
def Boundary (toks : List Token) (i : Nat) : Prop :=
  ∃ front back, toks = front ++ back ∧ i = (front.flatMap text).length

theorem At.boundary {i : Nat} (h : At toks tok i) : Boundary toks (i + tok.text.length) := by
  obtain ⟨front, back, rfl, rfl⟩ := h
  exact ⟨front ++ [tok], back, by simp, by simp⟩

theorem Boundary.le_or_le {i j : Nat} (hi : Boundary toks i) (hj : At toks tok j) :
    i ≤ j ∨ j + tok.text.length ≤ i := by
  obtain ⟨front, back, rfl, rfl⟩ := hi
  obtain ⟨before, behind, heq, rfl⟩ := hj
  rcases List.append_eq_append_iff.mp heq with ⟨between, rfl, -⟩ | ⟨between, rfl, hrest⟩
  · left
    simp
  · cases between with
    | nil =>
      left
      simp
    | cons first between =>
      obtain rfl : tok = first := (List.cons_eq_cons.mp hrest).1
      right
      simp

end Token

open Token

/-- What a scan finds in a text that is read as the tokens `toks`. -/
structure TokenScan (toks : List Token) (t : Bytes) : Prop where
  text : t = toks.flatMap Token.text
  mask : codeMask t = toks.flatMap fun tok => List.replicate tok.text.length tok.isPlain
  openBrace : ∀ i, ⟨.openBrace, i⟩ ∈ events t ↔
    t[i]? = some Ascii.leftBrace ∧ (codeMask t)[i]? = some true
  closeBrace : ∀ i, ⟨.closeBrace, i⟩ ∈ events t ↔
    t[i]? = some Ascii.rightBrace ∧ (codeMask t)[i]? = some true
  semicolon : ∀ i, ⟨.semicolon, i⟩ ∈ events t ↔
    t[i]? = some Ascii.semicolon ∧ (codeMask t)[i]? = some true
  lineBreak : ∀ i, ⟨.lineBreak, i⟩ ∈ events t ↔
    (t[i]? = some Ascii.newline ∧ (codeMask t)[i]? = some true) ∨
      ∃ s j, At toks (lineComment s true) j ∧ i + 1 = j + (lineComment s true).text.length
  commentEnd : ∀ i, ⟨.commentEnd, i⟩ ∈ events t ↔
    ∃ s j, At toks (blockComment s true) j ∧ i + 1 = j + (blockComment s true).text.length
  ascending : (events t).Pairwise (·.offset < ·.offset)
  starts : statementStarts t = 0 :: ((events t).map (·.offset + 1)).filter (· < t.length)
  boundary : ∀ i ∈ statementStarts t, Boundary toks i
  outside : ∀ i ∈ statementStarts t, ∀ tok j, At toks tok j → i ≤ j ∨ j + tok.text.length ≤ i

namespace Division
variable {toks : List Token} {t : Bytes}

theorem mem_events_mark_iff (h : Division toks t) {kind : EventKind} {b : UInt8}
    (hline : kind ≠ .lineBreak) (hcomment : kind ≠ .commentEnd)
    (hb : ∀ c, (kind, c) ∈ EventKind.marks ↔ c = b) (i : Nat) :
    ⟨kind, i⟩ ∈ events t ↔ t[i]? = some b ∧ (codeMask t)[i]? = some true := by
  rw [h.mem_events_iff, ← h.at_plain_iff]
  constructor
  · rintro ⟨tok, j, hat, hevent, hend⟩
    obtain ⟨c, hc, rfl⟩ := (event?_eq_mark_iff hline hcomment).mp hevent
    rw [hb] at hc
    rw [← hc, Nat.succ_injective hend]
    exact hat
  · intro hat
    exact ⟨plain b, i, hat, (event?_eq_mark_iff hline hcomment).mpr ⟨b, (hb b).mpr rfl, rfl⟩, rfl⟩

theorem mem_events_lineBreak_iff (h : Division toks t) (i : Nat) :
    ⟨.lineBreak, i⟩ ∈ events t ↔
      (t[i]? = some Ascii.newline ∧ (codeMask t)[i]? = some true) ∨
        ∃ s j, At toks (lineComment s true) j ∧
          i + 1 = j + (lineComment s true).text.length := by
  rw [h.mem_events_iff, ← h.at_plain_iff]
  simp only [event?_eq_lineBreak_iff]
  constructor
  · rintro ⟨tok, j, hat, rfl | ⟨s, rfl⟩, hend⟩
    · rw [Nat.succ_injective hend]
      exact .inl hat
    · exact .inr ⟨s, j, hat, hend⟩
  · rintro (hat | ⟨s, j, hat, hend⟩)
    · exact ⟨_, i, hat, .inl rfl, rfl⟩
    · exact ⟨_, j, hat, .inr ⟨s, rfl⟩, hend⟩

theorem mem_events_commentEnd_iff (h : Division toks t) (i : Nat) :
    ⟨.commentEnd, i⟩ ∈ events t ↔ ∃ s j, At toks (blockComment s true) j ∧
      i + 1 = j + (blockComment s true).text.length := by
  rw [h.mem_events_iff]
  simp only [event?_eq_commentEnd_iff]
  constructor
  · rintro ⟨tok, j, hat, ⟨s, rfl⟩, hend⟩
    exact ⟨s, j, hat, hend⟩
  · rintro ⟨s, j, hat, hend⟩
    exact ⟨_, j, hat, ⟨s, rfl⟩, hend⟩

theorem boundary_of_mem (h : Division toks t) {i : Nat} (hi : i ∈ statementStarts t) :
    Boundary toks i := by
  rcases List.mem_cons.mp hi with rfl | hi
  · exact ⟨[], toks, rfl, rfl⟩
  · obtain ⟨⟨kind, offset⟩, he, rfl⟩ := List.mem_map.mp (List.mem_filter.mp hi).1
    obtain ⟨tok, j, hat, -, hend⟩ := h.mem_events_iff.mp he
    rw [hend]
    exact hat.boundary

theorem tokenScan (h : Division toks t) : TokenScan toks t where
  text := h.text_eq
  mask := h.mask_eq
  openBrace := h.mem_events_mark_iff (by decide) (by decide) (by simp [EventKind.marks])
  closeBrace := h.mem_events_mark_iff (by decide) (by decide) (by simp [EventKind.marks])
  semicolon := h.mem_events_mark_iff (by decide) (by decide) (by simp [EventKind.marks])
  lineBreak := h.mem_events_lineBreak_iff
  commentEnd := h.mem_events_commentEnd_iff
  ascending := pairwise_eventsFrom _ _ _
  starts := rfl
  boundary _ hi := h.boundary_of_mem hi
  outside _ hi _ _ hat := (h.boundary_of_mem hi).le_or_le hat

end Division

/-- Every text is read as tokens in one way only, and a scan finds what these tokens say. -/
theorem exists_unique_division (t : Bytes) :
    ∃ toks, Division toks t ∧ (∀ others, Division others t → others = toks) ∧ TokenScan toks t := by
  obtain ⟨toks, h⟩ := exists_division t
  exact ⟨toks, h, fun _ ho => h.unique ho, h.tokenScan⟩

end FieldTags
