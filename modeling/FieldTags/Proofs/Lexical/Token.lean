import FieldTags.Proofs.Lexical.Silent

/-! The token grammar of comments and strings: what a text may begin with, and what a scan does with a
token that it meets in code. -/
namespace FieldTags

/-- A comment or a string by what stands between its delimiters and whether it is closed, or one plain
byte. The newline that closes a line comment belongs to it. -/
inductive Token where
  | lineComment (content : Bytes) (closed : Bool)
  | blockComment (content : Bytes) (closed : Bool)
  | string (q : Quote) (content : Bytes) (closed : Bool)
  | plain (b : UInt8)

namespace Token

def text : Token → Bytes
  | lineComment s true => [Ascii.slash, Ascii.slash] ++ s ++ [Ascii.newline]
  | lineComment s false => [Ascii.slash, Ascii.slash] ++ s
  | blockComment s true =>
    [Ascii.slash, Ascii.asterisk] ++ s ++ [Ascii.asterisk, Ascii.slash]
  | blockComment s false => [Ascii.slash, Ascii.asterisk] ++ s
  | string q s true => [q.byte] ++ s ++ [q.byte]
  | string q s false => [q.byte] ++ s
  | plain b => [b]

def isPlain : Token → Bool
  | plain _ => true
  | _ => false

def closed : Token → Bool
  | lineComment _ closed => closed
  | blockComment _ closed => closed
  | string _ _ closed => closed
  | plain _ => true

def event? : Token → Option EventKind
  | lineComment _ true => some .lineBreak
  | blockComment _ true => some .commentEnd
  | plain b => EventKind.inCode? b
  | _ => none

/-- The token can be read where its text stands with `rest` behind it. Comments and strings that are
not closed go on to the end of the text, a string also if a backslash stands there. -/
def Fits : Token → Bytes → Prop
  | lineComment s closed, rest => Ascii.newline ∉ s ∧ (closed = false → rest = [])
  | blockComment s closed, rest =>
    ¬ [Ascii.asterisk, Ascii.slash] <:+: s ∧ (closed = false → rest = [])
  | string q s true, _ => q.Content s
  | string q s false, rest =>
    (q.Content s ∨ ∃ u, q.Content u ∧ s = u ++ [Ascii.backslash]) ∧ rest = []
  | plain b, _ => b ≠ Ascii.doubleQuote ∧ b ≠ Ascii.singleQuote

/-- No token that can be read there is longer. -/
def Longest (tok : Token) (rest : Bytes) : Prop :=
  tok.Fits rest ∧ ∀ other behind, Fits other behind →
    other.text ++ behind = tok.text ++ rest → other.text.length ≤ tok.text.length

theorem length_text_pos (tok : Token) : 0 < tok.text.length := by
  cases tok with
  | lineComment s closed => cases closed <;> simp [text]
  | blockComment s closed => cases closed <;> simp [text]
  | string q s closed => cases closed <;> simp [text]
  | plain b => simp [text]

theorem isChain_of_unterminated {s : Bytes} (h : ¬ [Ascii.asterisk, Ascii.slash] <:+: s) :
    s.IsChain fun b c => b = Ascii.asterisk → c ≠ Ascii.slash := by
  induction s with
  | nil => exact .nil
  | cons b s ih =>
    rw [List.infix_cons_iff, not_or] at h
    cases s with
    | nil => exact .singleton b
    | cons c s =>
      refine List.isChain_cons_cons.mpr ⟨?_, ih h.2⟩
      rintro rfl rfl
      exact h.1 ⟨s, rfl⟩

section
variable {tok other : Token} {rest behind : Bytes}

theorem Fits.outside_of_open (h : tok.Fits rest) (hc : tok.closed = false) :
    Mode.Outside tok.text ∧ rest = [] ∧ tok.event? = none := by
  cases tok with
  | lineComment s closed =>
    obtain rfl : closed = false := hc
    exact ⟨Mode.outside_line h.1, h.2 rfl, rfl⟩
  | blockComment s closed =>
    obtain rfl : closed = false := hc
    exact ⟨Mode.outside_block (isChain_of_unterminated h.1), h.2 rfl, rfl⟩
  | string q s closed =>
    obtain rfl : closed = false := hc
    obtain ⟨hcontent | ⟨u, hu, rfl⟩, hrest⟩ := h
    · exact ⟨Mode.outside_content hcontent, hrest, rfl⟩
    · exact ⟨Mode.outside_dangling hu, hrest, rfl⟩
  | plain b => exact absurd hc Bool.true_eq_false.mp

theorem Fits.closes (h : tok.Fits rest) (hp : tok.isPlain = false) (hc : tok.closed = true) :
    ∃ u z, tok.text = u ++ [z] ∧ Mode.Closes u z tok.event? := by
  cases tok with
  | lineComment s closed =>
    obtain rfl : closed = true := hc
    exact ⟨_, _, rfl, Mode.closes_line h.1⟩
  | blockComment s closed =>
    obtain rfl : closed = true := hc
    exact ⟨_, Ascii.slash, by simp [text], Mode.closes_block (isChain_of_unterminated h.1)⟩
  | string q s closed =>
    obtain rfl : closed = true := hc
    exact ⟨_, _, rfl, Mode.closes_quote h⟩
  | plain b => exact absurd hp Bool.true_eq_false.mp

theorem Fits.run_eq_code (h : tok.Fits rest) (hp : tok.isPlain = false) (hc : tok.closed = true) :
    Mode.run .code tok.text = .code := by
  obtain ⟨u, z, htext, hcloses⟩ := h.closes hp hc
  rw [htext]
  exact hcloses.run

theorem Fits.run_ne_code (h : tok.Fits rest) (hp : tok.isPlain = false) {p q : Bytes}
    (hpq : tok.text = p ++ q) (hpne : p ≠ []) (hq : tok.closed = false ∨ q ≠ []) :
    Mode.run .code p ≠ .code := by
  cases hc : tok.closed with
  | false => exact (h.outside_of_open hc).1.run_ne p q hpq hpne
  | true =>
    obtain ⟨u, z, htext, hcloses⟩ := h.closes hp hc
    exact hcloses.run_ne (htext.symm.trans hpq) hpne (hq.resolve_left (by simp [hc]))

theorem Fits.length_le (h : tok.Fits rest) (hp : tok.isPlain = false) (ho : other.Fits behind)
    (hop : other.isPlain = false) (heq : other.text ++ behind = tok.text ++ rest) :
    other.text.length ≤ tok.text.length := by
  by_contra hlt
  rcases List.append_eq_append_iff.mp heq with ⟨q, hq, -⟩ | ⟨q, hq, hrest⟩
  · rw [hq, List.length_append] at hlt
    omega
  have hqne : q ≠ [] := by
    rintro rfl
    rw [hq, List.append_nil] at hlt
    exact hlt (Nat.le_refl _)
  have hne := ho.run_ne_code hop hq (List.ne_nil_of_length_pos tok.length_text_pos) (.inr hqne)
  cases hc : tok.closed with
  | false =>
    rw [(h.outside_of_open hc).2.1] at hrest
    exact hqne (List.append_eq_nil_iff.mp hrest.symm).1
  | true => exact hne (h.run_eq_code hp hc)

theorem Fits.longest (h : tok.Fits rest) (hp : tok.isPlain = false) : tok.Longest rest := by
  refine ⟨h, fun other behind ho heq => ?_⟩
  cases hop : other.isPlain with
  | false => exact h.length_le hp ho hop heq
  | true =>
    cases other with
    | plain b => exact tok.length_text_pos
    | _ => exact absurd hop Bool.false_eq_true.mp

theorem Fits.closed_eq (h : tok.Fits rest) (hp : tok.isPlain = false) (ho : other.Fits behind)
    (hop : other.isPlain = false) (htext : other.text = tok.text) : other.closed = tok.closed := by
  have hiff : ∀ {a : Token} {r : Bytes}, a.Fits r → a.isPlain = false →
      (a.closed = true ↔ Mode.run .code a.text = .code) := by
    intro a r ha hap
    refine ⟨ha.run_eq_code hap, fun hrun => ?_⟩
    by_contra hc
    exact ha.run_ne_code hap (List.append_nil _).symm (List.ne_nil_of_length_pos a.length_text_pos)
      (.inl (Bool.eq_false_iff.mpr hc)) hrun
  rw [Bool.eq_iff_iff, hiff ho hop, hiff h hp, htext]

theorem Fits.quote_of_singleton (h : tok.Fits rest) (hp : tok.isPlain = false) {b : UInt8}
    (htext : tok.text = [b]) : ¬ (plain b).Fits behind := by
  cases tok with
  | lineComment s closed => cases closed <;> simp [text] at htext
  | blockComment s closed => cases closed <;> simp [text] at htext
  | string q s closed =>
    obtain rfl : q.byte = b := by cases closed <;> exact (List.cons_eq_cons.mp htext).1
    intro hplain
    cases q with
    | double => exact hplain.1 rfl
    | single => exact hplain.2 rfl
  | plain c => exact absurd hp Bool.true_eq_false.mp

theorem Fits.isPlain_eq (h : tok.Fits rest) (ho : other.Fits behind)
    (htext : other.text = tok.text) : other.isPlain = tok.isPlain := by
  cases hp : tok.isPlain with
  | true =>
    cases tok with
    | plain b =>
      by_contra hop
      exact ho.quote_of_singleton (Bool.eq_false_iff.mpr hop) htext h
    | _ => exact absurd hp Bool.false_eq_true.mp
  | false =>
    cases other with
    | plain b => exact absurd ho (h.quote_of_singleton hp htext.symm)
    | _ => rfl

theorem Fits.eq_of_text (h : tok.Fits rest) (ho : other.Fits behind)
    (htext : other.text = tok.text) : other = tok := by
  have hslash : ∀ q : Quote, q.byte ≠ Ascii.slash := by
    intro q
    cases q <;> decide
  have hinj : ∀ q r : Quote, q.byte = r.byte → q = r := by
    intro q r
    cases q <;> cases r <;> decide
  have hstar : Ascii.slash ≠ Ascii.asterisk := by decide
  have hplain := h.isPlain_eq ho htext
  have hclosed : tok.isPlain = false → other.isPlain = false → other.closed = tok.closed :=
    fun hp hop => h.closed_eq hp ho hop htext
  cases tok with
  | lineComment s closed =>
    cases other with
    | lineComment r c =>
      obtain rfl : c = closed := hclosed rfl rfl
      cases c <;> simpa [text] using htext
    | blockComment r c => cases c <;> cases closed <;> simp [text, hstar.symm] at htext
    | string q r c => cases c <;> cases closed <;> simp [text, hslash] at htext
    | plain b => exact absurd hplain Bool.true_eq_false.mp
  | blockComment s closed =>
    cases other with
    | lineComment r c => cases c <;> cases closed <;> simp [text, hstar] at htext
    | blockComment r c =>
      obtain rfl : c = closed := hclosed rfl rfl
      cases c <;> simpa [text] using htext
    | string q r c => cases c <;> cases closed <;> simp [text, hslash] at htext
    | plain b => exact absurd hplain Bool.true_eq_false.mp
  | string q s closed =>
    cases other with
    | lineComment r c => cases c <;> cases closed <;> simp [text, (hslash _).symm] at htext
    | blockComment r c => cases c <;> cases closed <;> simp [text, (hslash _).symm] at htext
    | string p r c =>
      obtain rfl : c = closed := hclosed rfl rfl
      obtain rfl : p = q := by
        refine hinj p q ?_
        cases c <;> exact (List.cons_eq_cons.mp htext).1
      cases c <;> simpa [text] using htext
    | plain b => exact absurd hplain Bool.true_eq_false.mp
  | plain b =>
    cases other with
    | plain c => simpa [text] using htext
    | _ => exact absurd hplain Bool.false_eq_true.mp

/-- Tokens as long as possible are alike where their texts stand alike. -/
theorem Longest.unique (h : tok.Longest rest) (ho : other.Longest behind)
    (heq : other.text ++ behind = tok.text ++ rest) : other = tok ∧ behind = rest := by
  have hlen : other.text.length = tok.text.length :=
    Nat.le_antisymm (h.2 other behind ho.1 heq) (ho.2 tok rest h.1 heq.symm)
  obtain ⟨htext, hbehind⟩ := List.append_inj heq hlen
  exact ⟨h.1.eq_of_text ho.1 htext, hbehind⟩

end

/-! Every place in a text has a token -/

theorem exists_terminator (u : Bytes) :
    (∃ s rest, u = s ++ [Ascii.asterisk, Ascii.slash] ++ rest ∧
      ¬ [Ascii.asterisk, Ascii.slash] <:+: s) ∨ ¬ [Ascii.asterisk, Ascii.slash] <:+: u := by
  induction u with
  | nil => exact .inr (by simp)
  | cons b u ih =>
    by_cases hhere : [Ascii.asterisk, Ascii.slash] <+: b :: u
    · obtain ⟨rest, hrest⟩ := hhere
      exact .inl ⟨[], rest, by simpa using hrest.symm, by simp⟩
    rcases ih with ⟨s, rest, rfl, hs⟩ | hu
    · refine .inl ⟨b :: s, rest, rfl, ?_⟩
      rw [List.infix_cons_iff, not_or]
      refine ⟨fun hfront => hhere (hfront.trans ?_), hs⟩
      rw [List.append_assoc, ← List.cons_append]
      exact List.prefix_append _ _
    · right
      rw [List.infix_cons_iff, not_or]
      exact ⟨hhere, hu⟩

theorem exists_comment {c : UInt8} (hc : c = Ascii.slash ∨ c = Ascii.asterisk) (u : Bytes) :
    ∃ tok rest, Fits tok rest ∧ tok.isPlain = false ∧ 1 < tok.text.length ∧
      tok.text ++ rest = Ascii.slash :: c :: u := by
  rcases hc with rfl | rfl
  · by_cases hmem : Ascii.newline ∈ u
    · obtain ⟨s, rest, rfl, hs⟩ := List.eq_append_cons_of_mem hmem
      exact ⟨lineComment s true, rest, ⟨hs, by simp⟩, rfl, by simp [text], by simp [text]⟩
    · exact ⟨lineComment u false, [], ⟨hmem, fun _ => rfl⟩, rfl, by simp [text], by simp [text]⟩
  · rcases exists_terminator u with ⟨s, rest, rfl, hs⟩ | hu
    · exact ⟨blockComment s true, rest, ⟨hs, by simp⟩, rfl, by simp [text], by simp [text]⟩
    · exact ⟨blockComment u false, [], ⟨hu, fun _ => rfl⟩, rfl, by simp [text], by simp [text]⟩

theorem exists_quote (q : Quote) (u : Bytes) :
    (∃ s rest, u = s ++ q.byte :: rest ∧ q.Content s) ∨
      q.Content u ∨ ∃ s, q.Content s ∧ u = s ++ [Ascii.backslash] := by
  induction hn : u.length using Nat.strong_induction_on generalizing u with
  | _ n ih =>
    -- an escape pair or another byte in front of the rest
    have hfront : ∀ p v, p ≠ [] → u = p ++ v → (∀ {s}, q.Content s → q.Content (p ++ s)) →
        (∃ s rest, u = s ++ q.byte :: rest ∧ q.Content s) ∨
          q.Content u ∨ ∃ s, q.Content s ∧ u = s ++ [Ascii.backslash] := by
      rintro p v hp rfl hcontent
      have hlen := List.length_pos_of_ne_nil hp
      rw [List.length_append] at hn
      rcases ih v.length (by omega) v rfl with ⟨s, rest, rfl, hs⟩ | hv | ⟨s, hs, rfl⟩
      · exact .inl ⟨p ++ s, rest, by simp, hcontent hs⟩
      · exact .inr (.inl (hcontent hv))
      · exact .inr (.inr ⟨p ++ s, hcontent hs, by simp⟩)
    cases u with
    | nil => exact .inr (.inl .nil)
    | cons b v =>
      by_cases hquote : b = q.byte
      · exact .inl ⟨[], v, by simp [hquote], .nil⟩
      by_cases hback : b = Ascii.backslash
      · subst hback
        cases v with
        | nil => exact .inr (.inr ⟨[], .nil, rfl⟩)
        | cons c v =>
          exact hfront [Ascii.backslash, c] v (by simp) rfl fun hs => .escape c hs
      · exact hfront [b] v (by simp) rfl fun hs => .char ⟨hquote, hback⟩ hs

theorem exists_string (q : Quote) (u : Bytes) : ∃ tok rest, Fits tok rest ∧ tok.isPlain = false ∧
    tok.text ++ rest = q.byte :: u := by
  rcases exists_quote q u with ⟨s, rest, rfl, hs⟩ | hu | ⟨s, hs, rfl⟩
  · exact ⟨string q s true, rest, hs, rfl, by simp [text]⟩
  · exact ⟨string q u false, [], ⟨.inl hu, rfl⟩, rfl, by simp [text]⟩
  · exact ⟨string q _ false, [], ⟨.inr ⟨s, hs, rfl⟩, rfl⟩, rfl, by simp [text]⟩

/-- A byte is read as plain exactly if it is no quote and begins no comment. -/
theorem longest_plain_iff {b : UInt8} {rest : Bytes} : (plain b).Longest rest ↔
    (b ≠ Ascii.doubleQuote ∧ b ≠ Ascii.singleQuote) ∧
      (b = Ascii.slash → rest.head? ≠ some Ascii.slash ∧ rest.head? ≠ some Ascii.asterisk) := by
  constructor
  · rintro ⟨hfits, hmax⟩
    refine ⟨hfits, ?_⟩
    rintro rfl
    have hcomment : ∀ c, c = Ascii.slash ∨ c = Ascii.asterisk → rest.head? ≠ some c := by
      intro c hc hhead
      cases rest with
      | nil => simp at hhead
      | cons d u =>
        obtain rfl : d = c := by simpa using hhead
        obtain ⟨tok, behind, htok, -, hlong, htext⟩ := exists_comment hc u
        exact absurd (hmax tok behind htok htext) (Nat.not_le_of_lt hlong)
    exact ⟨hcomment _ (.inl rfl), hcomment _ (.inr rfl)⟩
  · rintro ⟨hfits, hslash⟩
    refine ⟨hfits, fun other behind _ heq => ?_⟩
    cases other with
    | lineComment s closed =>
      cases closed <;>
        obtain ⟨rfl, rfl⟩ := List.cons_eq_cons.mp heq <;> exact absurd rfl (hslash rfl).1
    | blockComment s closed =>
      cases closed <;>
        obtain ⟨rfl, rfl⟩ := List.cons_eq_cons.mp heq <;> exact absurd rfl (hslash rfl).2
    | string q s closed =>
      have hb : q.byte = b := by cases closed <;> exact (List.cons_eq_cons.mp heq).1
      cases q with
      | double => exact absurd hb.symm hfits.1
      | single => exact absurd hb.symm hfits.2
    | plain c => exact Nat.le_refl 1

theorem exists_longest (b : UInt8) (u : Bytes) :
    ∃ tok rest, Longest tok rest ∧ tok.text ++ rest = b :: u := by
  by_cases hquote : ∃ q : Quote, b = q.byte
  · obtain ⟨q, rfl⟩ := hquote
    obtain ⟨tok, rest, hfits, hplain, htext⟩ := exists_string q u
    exact ⟨tok, rest, hfits.longest hplain, htext⟩
  by_cases hcomment : b = Ascii.slash ∧
      (u.head? = some Ascii.slash ∨ u.head? = some Ascii.asterisk)
  · obtain ⟨rfl, hhead⟩ := hcomment
    cases u with
    | nil => simp at hhead
    | cons c u =>
      obtain ⟨tok, rest, hfits, hplain, -, htext⟩ := exists_comment (by simpa using hhead) u
      exact ⟨tok, rest, hfits.longest hplain, htext⟩
  · refine ⟨plain b, u, longest_plain_iff.mpr ⟨⟨?_, ?_⟩, ?_⟩, rfl⟩
    · exact fun hb => hquote ⟨.double, hb⟩
    · exact fun hb => hquote ⟨.single, hb⟩
    · intro hb
      rw [← not_or]
      exact fun hhead => hcomment ⟨hb, hhead⟩

end Token
end FieldTags
