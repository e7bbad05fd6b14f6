import FieldTags.Proofs.Lexical.Scan

/-! Texts that differ only inside their comments and strings, and there in bytes that do not end one.
Step by step a scan is in the same mode in both, so it finds the same events and shows the same bytes. -/
namespace FieldTags

/-- The bytes that can begin or end a comment or a string, or keep one from ending. -/
def Ascii.isDelimiter (b : UInt8) : Bool :=
  [newline, doubleQuote, singleQuote, backslash, slash, asterisk].contains b

/-- The two texts have the same bytes, except that where `t` has no code both may have any bytes that
are no delimiters. -/
def Alike (t u : Bytes) : Prop :=
  t.length = u.length ∧ ∀ i < t.length, t[i]? = u[i]? ∨
    (codeMask t)[i]? = some false ∧ t[i]?.any Ascii.isDelimiter = false ∧
      u[i]?.any Ascii.isDelimiter = false

instance (t u : Bytes) : Decidable (Alike t u) := inferInstanceAs (Decidable (_ ∧ _))

namespace Mode
variable {m : Mode} {b c : UInt8}

theorem not_isDelimiter (h : Ascii.isDelimiter b = false) :
    b ≠ Ascii.newline ∧ b ≠ Ascii.doubleQuote ∧ b ≠ Ascii.singleQuote ∧ b ≠ Ascii.backslash ∧
      b ≠ Ascii.slash ∧ b ≠ Ascii.asterisk := by
  simpa [Ascii.isDelimiter] using h

theorem shows_of_isCode (hm : m.isCode = true) (hb : Ascii.isDelimiter b = false)
    (following : Option UInt8) : m.shows b following = true := by
  obtain ⟨-, hd, hs, -, hl, ha⟩ := not_isDelimiter hb
  cases m <;> simp_all [isCode, shows]

/-- In a comment or a string all bytes that are no delimiters do the same. -/
theorem next_of_hidden (hm : m.isCode = false) (hb : Ascii.isDelimiter b = false)
    (hc : Ascii.isDelimiter c = false) : m.next b = m.next c := by
  obtain ⟨hn, hd, hs, hk, hl, ha⟩ := not_isDelimiter hb
  obtain ⟨hn', hd', hs', hk', hl', ha'⟩ := not_isDelimiter hc
  cases m with
  | code => simp [isCode] at hm
  | slash => simp [isCode] at hm
  | quoted q => cases q <;> simp [next, Quote.byte, *]
  | _ => simp [next, *]

theorem isCode_next_of_hidden (hm : m.isCode = false) (hb : Ascii.isDelimiter b = false) :
    (m.next b).isCode = false := by
  obtain ⟨hn, hd, hs, hk, hl, ha⟩ := not_isDelimiter hb
  cases m with
  | code => simp [isCode] at hm
  | slash => simp [isCode] at hm
  | quoted q => cases q <;> simp [next, isCode, Quote.byte, *]
  | _ => simp [next, isCode, *]

theorem isCode_run_of_hidden {w : Bytes} (hm : m.isCode = false)
    (hw : ∀ b ∈ w, Ascii.isDelimiter b = false) : (m.run w).isCode = false := by
  induction w generalizing m with
  | nil => exact hm
  | cons b w ih =>
    obtain ⟨hb, hw⟩ := List.forall_mem_cons.mp hw
    exact ih (isCode_next_of_hidden hm hb) hw

theorem event?_of_hidden (hm : m.isCode = false) (hb : Ascii.isDelimiter b = false) :
    m.event? b = none := by
  obtain ⟨hn, -, -, -, hl, -⟩ := not_isDelimiter hb
  cases m <;> simp_all [isCode, event?]

theorem shows_congr (m : Mode) (b : UInt8) {c d : UInt8} (hc : Ascii.isDelimiter c = false)
    (hd : Ascii.isDelimiter d = false) : m.shows b (some c) = m.shows b (some d) := by
  have hopens : ∀ {x : UInt8}, Ascii.isDelimiter x = false →
      (some x != some Ascii.slash && some x != some Ascii.asterisk) = true := by
    intro x hx
    obtain ⟨-, -, -, -, hl, ha⟩ := not_isDelimiter hx
    simp [hl, ha]
  cases m with
  | code => simp only [shows, hopens hc, hopens hd]
  | _ => rfl

end Mode

/-- Two texts that are entered in the mode `m` and agree up to bytes of comments and strings that are
no delimiters. -/
inductive AlikeFrom : Mode → Bytes → Bytes → Prop
  | nil (m : Mode) : AlikeFrom m [] []
  | same {m : Mode} {t u : Bytes} (b : UInt8) (h : AlikeFrom (m.next b) t u) :
      AlikeFrom m (b :: t) (b :: u)
  | hidden {m : Mode} {t u : Bytes} {b c : UInt8} (hm : m.isCode = false)
      (hb : Ascii.isDelimiter b = false) (hc : Ascii.isDelimiter c = false)
      (h : AlikeFrom (m.next b) t u) : AlikeFrom m (b :: t) (c :: u)

namespace AlikeFrom
variable {m : Mode} {t u : Bytes}

theorem of_bytes (hlength : t.length = u.length)
    (hbytes : ∀ i < t.length, t[i]? = u[i]? ∨ (codeMaskFrom m t)[i]? = some false ∧
      t[i]?.any Ascii.isDelimiter = false ∧ u[i]?.any Ascii.isDelimiter = false) :
    AlikeFrom m t u := by
  induction t generalizing m u with
  | nil =>
    obtain rfl : u = [] := List.eq_nil_of_length_eq_zero hlength.symm
    exact .nil m
  | cons b t ih =>
    cases u with
    | nil => simp at hlength
    | cons c u =>
      have hrest : AlikeFrom (m.next b) t u :=
        ih (Nat.succ.inj hlength) fun i hi => hbytes (i + 1) (Nat.succ_lt_succ hi)
      rcases hbytes 0 (Nat.succ_pos _) with hsame | ⟨hmask, hb, hc⟩
      · obtain rfl : b = c := Option.some.inj hsame
        exact .same b hrest
      · refine .hidden (Bool.eq_false_iff.mpr fun hm => ?_) hb hc hrest
        rw [codeMaskFrom, List.getElem?_cons_zero, Mode.shows_of_isCode hm hb] at hmask
        simp at hmask

theorem symm (h : AlikeFrom m t u) : AlikeFrom m u t := by
  induction h with
  | nil m => exact .nil m
  | same b _ ih => exact .same b ih
  | hidden hm hb hc _ ih => exact .hidden hm hc hb (Mode.next_of_hidden hm hb hc ▸ ih)

theorem run_eq (h : AlikeFrom m t u) : m.run u = m.run t := by
  induction h with
  | nil m => rfl
  | same b _ ih => exact ih
  | hidden hm hb hc _ ih => rw [Mode.run_cons, Mode.run_cons, Mode.next_of_hidden hm hc hb, ih]

theorem eventsFrom_eq (h : AlikeFrom m t u) (position : Nat) :
    eventsFrom m position u = eventsFrom m position t := by
  induction h generalizing position with
  | nil m => rfl
  | same b _ ih => rw [eventsFrom, eventsFrom, ih]
  | hidden hm hb hc _ ih =>
    rw [eventsFrom, eventsFrom, Mode.event?_of_hidden hm hb, Mode.event?_of_hidden hm hc,
      Mode.next_of_hidden hm hc hb, ih]

theorem shows_eq (h : AlikeFrom m t u) (n : Mode) (b : UInt8) :
    n.shows b u.head? = n.shows b t.head? := by
  cases h with
  | nil m => rfl
  | same c _ => rfl
  | hidden _ hc hd _ => exact n.shows_congr b hd hc

theorem codeMaskFrom_eq (h : AlikeFrom m t u) : codeMaskFrom m u = codeMaskFrom m t := by
  induction h with
  | nil m => rfl
  | same b hrest ih => rw [codeMaskFrom, codeMaskFrom, hrest.shows_eq, ih]
  | hidden hm hb hc hrest ih =>
    rw [codeMaskFrom, codeMaskFrom, Mode.shows_of_not_isCode hm, Mode.shows_of_not_isCode hm,
      Mode.next_of_hidden hm hc hb, ih]

theorem length_eq (h : AlikeFrom m t u) : u.length = t.length := by
  rw [← length_codeMaskFrom m u, h.codeMaskFrom_eq, length_codeMaskFrom]

theorem drop (h : AlikeFrom m t u) (k : Nat) :
    AlikeFrom (m.run (t.take k)) (t.drop k) (u.drop k) := by
  induction h generalizing k with
  | nil m => simpa using AlikeFrom.nil m
  | same b hrest ih =>
    cases k with
    | zero => exact .same b hrest
    | succ k => exact ih k
  | hidden hm hb hc hrest ih =>
    cases k with
    | zero => exact .hidden hm hb hc hrest
    | succ k => exact ih k

theorem take (h : AlikeFrom m t u) (k : Nat) : AlikeFrom m (t.take k) (u.take k) := by
  induction h generalizing k with
  | nil m => simpa using AlikeFrom.nil m
  | same b _ ih =>
    cases k with
    | zero => exact .nil _
    | succ k => exact .same b (ih k)
  | hidden hm hb hc _ ih =>
    cases k with
    | zero => exact .nil _
    | succ k => exact .hidden hm hb hc (ih k)

theorem exists_append {s : Bytes} (h : AlikeFrom m (s ++ t) u) (hm : m.isCode = true)
    (hs : ∀ b ∈ s, b ≠ Ascii.slash ∧ b ≠ Ascii.doubleQuote ∧ b ≠ Ascii.singleQuote ∧
      b ≠ Ascii.asterisk) : ∃ v, u = s ++ v := by
  induction s generalizing m u with
  | nil => exact ⟨u, rfl⟩
  | cons b s ih =>
    obtain ⟨⟨hl, hd, hq, ha⟩, hs⟩ := List.forall_mem_cons.mp hs
    cases h with
    | same _ h =>
      rw [Mode.next_of_plain hm hl hd hq ha] at h
      obtain ⟨v, rfl⟩ := ih h rfl hs
      exact ⟨v, rfl⟩
    | hidden hhidden => simp [hm] at hhidden

theorem suffix {s w : Bytes} (h : AlikeFrom m (s ++ w) u) (hw : ∀ b ∈ w, Ascii.isDelimiter b = false)
    (hcode : (m.run (s ++ w)).isCode = true) : w <:+ u := by
  have hdrop := h.drop s.length
  rw [List.take_left, List.drop_left] at hdrop
  rw [Mode.run_append] at hcode
  have hm : (m.run s).isCode = true := by
    cases hfirst : (m.run s).isCode with
    | true => rfl
    | false =>
      rw [Mode.isCode_run_of_hidden hfirst hw] at hcode
      simp at hcode
  have hlength := hdrop.length_eq
  rw [← List.append_nil w] at hdrop
  obtain ⟨v, hv⟩ := hdrop.exists_append hm fun b hb => by
    obtain ⟨-, hd, hq, -, hl, ha⟩ := Mode.not_isDelimiter (hw b hb)
    exact ⟨hl, hd, hq, ha⟩
  rw [hv, List.length_append] at hlength
  obtain rfl : v = [] := List.eq_nil_of_length_eq_zero (by omega)
  exact ⟨u.take s.length, by rw [← List.append_nil w, ← hv, List.take_append_drop]⟩

theorem getElem?_eq (h : AlikeFrom m t u) {i : Nat} (hmask : (codeMaskFrom m t)[i]? = some true) :
    u[i]? = t[i]? := by
  induction h generalizing i with
  | nil m => rfl
  | same b _ ih =>
    cases i with
    | zero => rfl
    | succ i => exact ih hmask
  | hidden hm _ _ _ ih =>
    cases i with
    | zero =>
      rw [codeMaskFrom, List.getElem?_cons_zero, Mode.shows_of_not_isCode hm] at hmask
      simp at hmask
    | succ i => exact ih hmask

end AlikeFrom

theorem Alike.alikeFrom {t u : Bytes} (h : Alike t u) : AlikeFrom .code t u :=
  .of_bytes h.1 h.2

end FieldTags
