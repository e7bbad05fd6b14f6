import FieldTags.Proofs.Lexical.Silent

/-! Texts as lists of lexical units: bytes of code, whole string literals and whole comments. A scan
of such a text is in code exactly between two units, and each unit completes at most one event. -/
namespace FieldTags

/-- One byte of a string literal, or a backslash and the byte after it. Both stay on the line. -/
inductive LiteralUnit (q : Quote) where
  | char (b : UInt8) (h : b ≠ q.byte ∧ b ≠ Ascii.backslash ∧ b ≠ Ascii.newline)
  | escape (b : UInt8) (h : b ≠ Ascii.newline)

def LiteralUnit.text {q : Quote} : LiteralUnit q → Bytes
  | char b _ => [b]
  | escape b _ => [Ascii.backslash, b]

structure Literal where
  quote : Quote
  units : List (LiteralUnit quote)

def Literal.text (l : Literal) : Bytes :=
  [l.quote.byte] ++ l.units.flatMap LiteralUnit.text ++ [l.quote.byte]

/-- A complete comment; that of a line takes its line end along. -/
inductive Comment where
  | line (content : Bytes) (h : Ascii.newline ∉ content)
  | block (content : Bytes)
      (h : content.IsChain fun b c => b = Ascii.asterisk → c ≠ Ascii.slash)

def Comment.text : Comment → Bytes
  | line content _ => [Ascii.slash, Ascii.slash] ++ content ++ [Ascii.newline]
  | block content _ =>
    [Ascii.slash, Ascii.asterisk] ++ (content ++ [Ascii.asterisk]) ++ [Ascii.slash]

def Comment.event : Comment → EventKind
  | line _ _ => .lineBreak
  | block _ _ => .commentEnd

inductive Atom where
  | byte (b : UInt8)
  | literal (l : Literal)
  | comment (c : Comment)

theorem content_units {q : Quote} (units : List (LiteralUnit q)) :
    q.Content (units.flatMap LiteralUnit.text) := by
  induction units with
  | nil => exact .nil
  | cons u units ih =>
    rw [List.flatMap_cons]
    cases u with
    | char b h => exact .char ⟨h.1, h.2.1⟩ ih
    | escape b h => exact .escape b ih

namespace Atom

def text : Atom → Bytes
  | byte b => [b]
  | literal l => l.text
  | comment c => c.text

def event? : Atom → Option EventKind
  | byte b => EventKind.inCode? b
  | literal _ => none
  | comment c => some c.event

/-- A byte of code opens neither a comment nor a string. -/
def Plain : Atom → Prop
  | byte b => b ≠ Ascii.slash ∧ b ≠ Ascii.doubleQuote ∧ b ≠ Ascii.singleQuote
  | _ => True

/-- What one atom does to a scan that meets it in code. -/
structure Scanned (a : Atom) : Prop where
  run : Mode.run .code a.text = .code
  inside : ∀ p q, a.text = p ++ q → p ≠ [] → q ≠ [] → Mode.run .code p ≠ .code
  events : ∀ position, eventsFrom .code position a.text =
    (a.event?.map (⟨·, position + a.text.length - 1⟩)).toList
  mask : (∃ b, a = byte b) ∨
    ∀ t i, i < a.text.length → (codeMaskFrom .code (a.text ++ t))[i]? = some false

theorem text_ne_nil (a : Atom) : a.text ≠ [] := by
  cases a with
  | byte b => simp [text]
  | literal l => simp [text, Literal.text]
  | comment c => cases c <;> simp [text, Comment.text]

theorem scanned_of_closes {a : Atom} {u : Bytes} {z : UInt8} (htext : a.text = u ++ [z])
    (h : Mode.Closes u z a.event?) : a.Scanned := by
  refine ⟨?_, fun p q hpq hp hq => ?_, fun position => ?_, Or.inr fun t i hi => ?_⟩
  · rw [htext]
    exact h.run
  · exact h.run_ne (htext.symm.trans hpq) hp hq
  · have hevents := h.events position []
    rw [List.append_nil] at hevents
    rw [htext, hevents, List.length_append]
    simp [eventsFrom]
  · rw [htext, List.length_append, List.length_singleton] at hi
    rw [htext, h.mask, List.getElem?_append_left (by simpa using hi), List.getElem?_replicate,
      if_pos hi]

theorem scanned_byte {b : UInt8} (h : (byte b).Plain) : (byte b).Scanned := by
  obtain ⟨hs, hd, hq⟩ := h
  have hn : Mode.next .code b = .code := by simp [Mode.next, Mode.nextInCode, hs, hd, hq]
  refine ⟨hn, fun p q hpq hp hq => ?_, fun position => ?_, Or.inl ⟨b, rfl⟩⟩
  · have hlen := congrArg List.length hpq
    have hp := List.length_pos_of_ne_nil hp
    have hq := List.length_pos_of_ne_nil hq
    simp only [text, List.length_singleton, List.length_append] at hlen
    omega
  · simp [text, eventsFrom, event?, Mode.event?]

theorem Plain.scanned {a : Atom} (h : a.Plain) : a.Scanned := by
  cases a with
  | byte b => exact scanned_byte h
  | literal l => exact scanned_of_closes rfl (Mode.closes_quote (content_units l.units))
  | comment c =>
    cases c with
    | line content hc => exact scanned_of_closes rfl (Mode.closes_line hc)
    | block content hc => exact scanned_of_closes rfl (Mode.closes_block hc)

end Atom

abbrev Atoms := List Atom

namespace Atoms

def text (as : Atoms) : Bytes := as.flatMap Atom.text

def ofBytes (t : Bytes) : Atoms := t.map Atom.byte

def Plain (as : Atoms) : Prop := ∀ a ∈ as, a.Plain

@[simp] theorem text_nil : text [] = [] := rfl

@[simp] theorem text_cons (a : Atom) (as : Atoms) : text (a :: as) = a.text ++ text as := rfl

@[simp] theorem text_append (as bs : Atoms) : text (as ++ bs) = text as ++ text bs :=
  List.flatMap_append

@[simp] theorem text_ofBytes (t : Bytes) : text (ofBytes t) = t := by
  induction t with
  | nil => rfl
  | cons b t ih =>
    change b :: text (ofBytes t) = _
    rw [ih]

theorem run_text {as : Atoms} (h : Plain as) : Mode.run .code (text as) = .code := by
  induction as with
  | nil => rfl
  | cons a as ih =>
    rw [text_cons, Mode.run_append, (h a (by simp)).scanned.run,
      ih fun b hb => h b (by simp [hb])]

theorem exists_of_run_code {as : Atoms} (h : Plain as) {p q : Bytes} (ht : text as = p ++ q)
    (hp : Mode.run .code p = .code) : ∃ bs cs, as = bs ++ cs ∧ p = text bs ∧ q = text cs := by
  induction as generalizing p with
  | nil =>
    have : p = [] ∧ q = [] := by simpa using ht.symm
    exact ⟨[], [], rfl, this.1, this.2⟩
  | cons a as ih =>
    have ha := (h a (by simp)).scanned
    have has : Plain as := fun b hb => h b (by simp [hb])
    by_cases hp0 : p = []
    · subst hp0
      exact ⟨[], a :: as, rfl, rfl, ht.symm⟩
    rw [text_cons] at ht
    have hskip : ∀ r, p = a.text ++ r → text as = r ++ q →
        ∃ bs cs, a :: as = bs ++ cs ∧ p = text bs ∧ q = text cs := by
      rintro r rfl hr
      rw [Mode.run_append, ha.run] at hp
      obtain ⟨bs, cs, rfl, rfl, rfl⟩ := ih has hr hp
      exact ⟨a :: bs, cs, rfl, rfl, rfl⟩
    rcases List.append_eq_append_iff.mp ht with ⟨r, hr, hrest⟩ | ⟨r, hr, hrest⟩
    · exact hskip r hr hrest
    · by_cases hr0 : r = []
      · subst hr0
        rw [List.append_nil] at hr
        exact hskip [] (by rw [hr, List.append_nil]) (by simpa using hrest.symm)
      · exact absurd hp (ha.inside p r hr hp0 hr0)

theorem mem_eventsFrom_text {as : Atoms} (h : Plain as) {position : Nat} {e : Event}
    (he : e ∈ eventsFrom .code position (text as)) :
    ∃ ds a cs, as = ds ++ a :: cs ∧ a.event? = some e.kind ∧
      e.offset + 1 = position + (text (ds ++ [a])).length := by
  induction as generalizing position with
  | nil => simp [eventsFrom] at he
  | cons a as ih =>
    have ha := (h a (by simp)).scanned
    rw [text_cons, eventsFrom_append, ha.run, ha.events, List.mem_append] at he
    rcases he with he | he
    · obtain ⟨k, hk, rfl⟩ : ∃ k, a.event? = some k ∧
          e = ⟨k, position + a.text.length - 1⟩ := by
        cases hk : a.event? with
        | none => simp [hk] at he
        | some k => exact ⟨k, rfl, by simpa [hk] using he⟩
      have := List.length_pos_of_ne_nil a.text_ne_nil
      refine ⟨[], a, as, rfl, hk, ?_⟩
      simp only [List.nil_append, text_cons, text_nil, List.append_nil]
      omega
    · obtain ⟨ds, b, cs, rfl, hb, ho⟩ := ih (fun b hb => h b (by simp [hb])) he
      refine ⟨a :: ds, b, cs, rfl, hb, ?_⟩
      rw [ho, List.cons_append, text_cons, List.length_append, Nat.add_assoc]

theorem mem_statementStarts_text {as : Atoms} (h : Plain as) {k : Nat}
    (hk : k ∈ statementStarts (text as)) :
    ∃ bs cs, as = bs ++ cs ∧ k = (text bs).length ∧
      (bs = [] ∨ cs ≠ [] ∧ ∃ ds a, bs = ds ++ [a] ∧ a.event?.isSome = true) := by
  rcases List.mem_cons.mp hk with rfl | hk
  · exact ⟨[], as, rfl, rfl, Or.inl rfl⟩
  · obtain ⟨hmap, hlt⟩ := List.mem_filter.mp hk
    obtain ⟨e, he, rfl⟩ := List.mem_map.mp hmap
    have he : e ∈ eventsFrom .code 0 (text as) := he
    obtain ⟨ds, a, cs, rfl, ha, ho⟩ := mem_eventsFrom_text h he
    rw [Nat.zero_add] at ho
    refine ⟨ds ++ [a], cs, by simp, ho, Or.inr ⟨?_, ds, a, rfl, by rw [ha]; rfl⟩⟩
    rintro rfl
    have hlt : e.offset + 1 < (text (ds ++ [a])).length := by simpa using hlt
    omega

theorem exists_of_codeMask {as : Atoms} (h : Plain as) {i : Nat}
    (hi : (codeMask (text as))[i]? = some true) :
    ∃ bs b cs, as = bs ++ .byte b :: cs ∧ i = (text bs).length := by
  induction as generalizing i with
  | nil => simp [codeMask, codeMaskFrom] at hi
  | cons a as ih =>
    have ha := (h a (by simp)).scanned
    have hmask : (codeMaskFrom .code (a.text ++ text as))[i]? = some true := hi
    rcases Nat.lt_or_ge i a.text.length with hlt | hge
    · rcases ha.mask with ⟨b, rfl⟩ | hfalse
      · have : i = 0 := by simpa [Atom.text] using hlt
        exact ⟨[], b, as, rfl, this⟩
      · rw [hfalse _ i hlt] at hmask
        simp at hmask
    · obtain ⟨j, rfl⟩ : ∃ j, i = a.text.length + j := ⟨i - a.text.length, by omega⟩
      rw [codeMaskFrom_append, ha.run] at hmask
      obtain ⟨bs, b, cs, rfl, rfl⟩ := ih (fun b hb => h b (by simp [hb])) hmask
      exact ⟨a :: bs, b, cs, rfl, by simp⟩

theorem exists_of_leftBrace {as : Atoms} (h : Plain as) {i : Nat}
    (hi : (text as)[i]? = some Ascii.leftBrace)
    (hcode : Mode.run .code ((text as).take i) = .code) :
    ∃ bs cs, as = bs ++ .byte Ascii.leftBrace :: cs ∧ i = (text bs).length := by
  obtain ⟨bs, cs, rfl, hp, hq⟩ :=
    exists_of_run_code h (List.take_append_drop i (text as)).symm hcode
  have hlt := (List.getElem?_eq_some_iff.mp hi).1
  have hlen : i = (text bs).length := by
    rw [← hp, List.length_take, Nat.min_eq_left (Nat.le_of_lt hlt)]
  rw [hlen, text_append, List.getElem?_append_right (Nat.le_refl _), Nat.sub_self] at hi
  cases cs with
  | nil => simp at hi
  | cons a cs =>
    refine ⟨bs, cs, ?_, hlen⟩
    cases a with
    | byte b =>
      have : b = Ascii.leftBrace := by simpa [Atom.text] using hi
      rw [this]
    | literal l =>
      have : l.quote.byte = Ascii.leftBrace := by simpa [Atom.text, Literal.text] using hi
      cases hl : l.quote <;> rw [hl] at this <;> exact absurd this (by decide)
    | comment c =>
      have : Ascii.slash = Ascii.leftBrace := by
        cases c <;> simpa [Atom.text, Comment.text] using hi
      exact absurd this (by decide)

end Atoms

end FieldTags
