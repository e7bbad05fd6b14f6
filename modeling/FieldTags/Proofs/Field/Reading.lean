import FieldTags.Field.Body
import FieldTags.Proofs.Field.Gaps
import FieldTags.Proofs.Message.Order

/-! Texts that no declaration can be read in. A declaration has a type, a gap and a name before its
equals sign, and nothing else stands between them. -/
namespace FieldTags
namespace Declaration
open Bytes

/-- A byte that ends a declaration's reading before its equals sign. -/
def isBreak (c : UInt8) : Bool :=
  c < 0x80 && !Ascii.isGap c && !holdsOf isTypeChar c && c != Ascii.equals

theorem isBreak_iff {c : UInt8} : isBreak c = true ↔
    c < 0x80 ∧ Ascii.isGap c = false ∧ holdsOf isTypeChar c = false ∧ c ≠ Ascii.equals := by
  simp [isBreak, and_assoc]

theorem isNameStart_of_nameLength_pos {t : Bytes} (h : 0 < nameLength t) :
    ∃ b, t[0]? = some b ∧ Ascii.isNameStart b = true := by
  cases t with
  | nil => simp [nameLength] at h
  | cons b t =>
    cases hb : Ascii.isNameStart b with
    | true => exact ⟨b, rfl, hb⟩
    | false => simp [nameLength, hb] at h

theorem isNameByte_of_isNameStart {b : UInt8} (h : Ascii.isNameStart b = true) :
    Ascii.isNameByte b = true := by
  simp [Ascii.isNameByte, h]

theorem holdsOf_isTypeChar {b : UInt8} (h : holdsOf isWord b = true) :
    holdsOf isTypeChar b = true := by
  have h : isWord (Char.ofNat b.toNat) = true := h
  simp [holdsOf, isTypeChar, h]

theorem isTypeChar_of_isNameByte {b : UInt8} (h : Ascii.isNameByte b = true) :
    holdsOf isTypeChar b = true :=
  holdsOf_isTypeChar (Ascii.isNameByte_class h).2

theorem isTypeChar_of_isGap {b : UInt8} (h : Ascii.isGap b = true) :
    b < 0x80 ∧ holdsOf isTypeChar b = false ∧ Ascii.isNameByte b = false := by
  rcases Ascii.isGap_iff.mp h with rfl | rfl <;> decide

theorem not_isGap_of_isNameByte {b : UInt8} (h : Ascii.isNameByte b = true) :
    Ascii.isGap b = false := by
  by_contra hgap
  rw [Bool.not_eq_false] at hgap
  rw [(isTypeChar_of_isGap hgap).2.2] at h
  simp at h

theorem not_isNameByte_of_not_isTypeChar {b : UInt8} (h : holdsOf isTypeChar b = false) :
    Ascii.isNameByte b = false := by
  by_contra hname
  rw [Bool.not_eq_false] at hname
  rw [isTypeChar_of_isNameByte hname] at h
  simp at h

theorem isTypeChar_of_lt_nameLength {t : Bytes} {k : Nat} (hk : k < nameLength t) {b : UInt8}
    (hb : t[k]? = some b) (ha : b < 0x80) : holdsOf isTypeChar b = true := by
  obtain ⟨c, hc, hstart⟩ := isNameStart_of_nameLength_pos (Nat.zero_lt_of_lt hk)
  cases t with
  | nil => simp at hb
  | cons x t =>
    cases k with
    | zero =>
      have hx : x = b := by simpa using hb
      have hxc : x = c := by simpa using hc
      rw [← hx, hxc]
      exact isTypeChar_of_isNameByte (isNameByte_of_isNameStart hstart)
    | succ k =>
      simp only [nameLength] at hk
      split at hk
      · exact holdsOf_isTypeChar (@holdsOf_of_lt_run isWord k t b (by omega) hb ha)
      · omega

theorem isNameByte_of_mem_labels : ∀ w ∈ labels, ∀ b ∈ w, Ascii.isNameByte b = true := by
  decide +kernel

theorem isNameByte_of_mem_mapKeyword : ∀ b ∈ mapKeyword, Ascii.isNameByte b = true := by
  decide +kernel

theorem of_mem_typeLengths {t : Bytes} {n : Nat} (hn : n ∈ typeLengths t) :
    0 < n ∧ (∃ b, t[0]? = some b ∧ Ascii.isGap b = false) ∧
      ∀ k < n, ∀ b, t[k]? = some b → b < 0x80 →
        Ascii.isGap b = true ∨ holdsOf isTypeChar b = true ∨
          ∃ l < k, t[l]? = some Ascii.less := by
  rcases List.mem_append.mp hn with hmap | hword
  · rw [Option.mem_toList, mapTypeLength?] at hmap
    split at hmap
    · rename_i hc
      obtain ⟨hbegin, hleft, -⟩ := hc
      obtain ⟨y, rfl⟩ := List.isPrefixOf_iff_prefix.mp hbegin
      obtain rfl := Option.some.inj hmap
      refine ⟨by omega, ⟨0x6D, rfl, by decide⟩, fun k hk b hb ha => ?_⟩
      rcases Nat.lt_or_ge k mapKeyword.length with hin | hout
      · rw [List.getElem?_append_left hin] at hb
        have := isNameByte_of_mem_mapKeyword b (List.mem_of_getElem? hb)
        exact Or.inr (Or.inl (isTypeChar_of_isNameByte this))
      rcases Nat.lt_trichotomy k
        (mapKeyword.length + gapLength ((mapKeyword ++ y).drop mapKeyword.length)) with
        hlt | heq | hgt
      · exact Or.inl (isGap_of_lt_gapLength hout (by omega) hb)
      · rw [heq, hleft, Option.some.injEq] at hb
        rw [← hb]
        exact Or.inr (Or.inl (by decide))
      · exact Or.inr (Or.inr ⟨_, hgt, hleft⟩)
    · simp at hmap
  · rw [Option.mem_toList, wordTypeLength?] at hword
    split at hword
    · rename_i hpos
      obtain rfl := Option.some.inj hword
      refine ⟨hpos, ?_, fun k hk b hb ha =>
        Or.inr (Or.inl (holdsOf_of_lt_run hk hb ha))⟩
      cases t with
      | nil => simp [Bytes.run, runAfter] at hpos
      | cons b t =>
        refine ⟨b, rfl, ?_⟩
        by_contra hgap
        rw [Bool.not_eq_false] at hgap
        obtain ⟨ha, htype, -⟩ := isTypeChar_of_isGap hgap
        rw [holdsOf_of_lt_run hpos rfl ha] at htype
        simp at htype
    · simp at hword

theorem of_mem_labelChoices {t : Bytes} {c : Option Bytes × Nat} (hc : c ∈ labelChoices t) :
    ∀ b ∈ t.take c.2, Ascii.isGap b = true ∨ Ascii.isNameByte b = true := by
  rcases List.mem_append.mp hc with hlabel | hnone
  · obtain ⟨w, hw, hlabel⟩ := List.mem_filterMap.mp hlabel
    simp only at hlabel
    split at hlabel
    · rename_i hcond
      obtain ⟨y, rfl⟩ := List.isPrefixOf_iff_prefix.mp hcond.1
      obtain rfl := Option.some.inj hlabel
      intro b hb
      rw [List.take_length_add_append, List.mem_append] at hb
      rcases hb with hb | hb
      · exact Or.inr (isNameByte_of_mem_labels w hw b hb)
      · rw [List.drop_left, take_gapLength] at hb
        exact Or.inl (isGap_of_mem_takeWhile y b hb)
    · simp at hlabel
  · rw [List.mem_singleton] at hnone
    subst hnone
    intro b hb
    simp at hb

theorem mem_openings {t : Bytes} {o : Opening} (ho : o ∈ openings t) :
    (∀ b ∈ t.take o.typeStart, Ascii.isGap b = true ∨ Ascii.isNameByte b = true) ∧
      ∃ n ∈ typeLengths (t.drop o.typeStart), o.typeStop = o.typeStart + n := by
  obtain ⟨⟨label, skip⟩, hc, ho⟩ := List.mem_flatMap.mp ho
  obtain ⟨n, hn, rfl⟩ := List.mem_map.mp ho
  refine ⟨fun b hb => ?_, n, hn, rfl⟩
  rw [List.take_add, List.mem_append] at hb
  rcases hb with hb | hb
  · rw [take_gapLength] at hb
    exact Or.inl (isGap_of_mem_takeWhile t b hb)
  · exact of_mem_labelChoices hc b hb

/-- A text from the type of a declaration on: a gap ends at `j`, behind it comes the name, and the
equals sign stands at `e`. -/
structure Lead (t : Bytes) (j e : Nat) : Prop where
  type : ∃ b, t[0]? = some b ∧ Ascii.isGap b = false
  gap : ∃ b, t[j]? = some b ∧ Ascii.isGap b = true
  name : ∃ b, t[j + 1]? = some b ∧ Ascii.isGap b = false
  before : 0 < j
  after : j + 1 < e
  equals : t[e]? = some Ascii.equals
  plain : ∀ k < e, ∀ b, t[k]? = some b → b < 0x80 →
    Ascii.isGap b = true ∨ holdsOf isTypeChar b = true ∨ ∃ l < k, t[l]? = some Ascii.less

theorem lead_of_complete? {t : Bytes} {o : Opening} {d : Declaration} {n : Nat}
    (hn : n ∈ typeLengths (t.drop o.typeStart)) (ho : o.typeStop = o.typeStart + n)
    (h : complete? t o = some d) : ∃ j e, Lead (t.drop o.typeStart) j e := by
  obtain ⟨hpos, htype, hplain⟩ := of_mem_typeLengths hn
  unfold complete? at h
  simp only at h
  split at h
  · rename_i hc
    obtain ⟨hgap, hname, hequals, -⟩ := hc
    generalize hx : t.drop o.typeStart = x at htype hplain hn
    have hshift : ∀ k, t.drop (o.typeStart + k) = x.drop k := by
      intro k
      rw [← hx, List.drop_drop]
    have hget : ∀ k, t[o.typeStart + k]? = x[k]? := by
      intro k
      rw [← hx, List.getElem?_drop]
    rw [ho] at hgap hname hequals
    simp only [Nat.add_assoc, hshift, hget] at hgap hname hequals
    generalize hg : gapLength (x.drop n) = g at hgap hname hequals
    generalize hm : nameLength (x.drop (n + g)) = m at hname hequals
    generalize hq : gapLength (x.drop (n + (g + m))) = q at hequals
    have hgap : 0 < g := by omega
    have hname : 0 < m := by omega
    refine ⟨n + g - 1, n + (g + m) + q, htype, ?_, ?_, by omega, by omega, ?_, ?_⟩
    · obtain ⟨b, hb, hisgap⟩ := getElem?_gapLength (t := x.drop n) (k := g - 1) (by omega)
      rw [List.getElem?_drop, ← Nat.add_sub_assoc hgap] at hb
      exact ⟨b, hb, hisgap⟩
    · obtain ⟨b, hb, hstart⟩ := isNameStart_of_nameLength_pos (t := x.drop (n + g)) (by omega)
      rw [List.getElem?_drop, Nat.add_zero] at hb
      rw [Nat.sub_add_cancel (by omega)]
      exact ⟨b, hb, not_isGap_of_isNameByte (isNameByte_of_isNameStart hstart)⟩
    · rw [← hequals]
      congr 1
      omega
    · -- byte by byte: the type, the gap, the name, the second gap
      intro k hk b hb ha
      by_cases h1 : k < n
      · exact hplain k h1 b hb ha
      by_cases h2 : k < n + g
      · exact Or.inl (isGap_of_lt_gapLength (p := n) (by omega) (by omega) hb)
      by_cases h3 : k < n + (g + m)
      · refine Or.inr (Or.inl (isTypeChar_of_lt_nameLength (t := x.drop (n + g))
          (k := k - (n + g)) (by omega) ?_ ha))
        rw [List.getElem?_drop, Nat.add_sub_cancel' (by omega), hb]
      · exact Or.inl (isGap_of_lt_gapLength (p := n + (g + m)) (by omega) (by omega) hb)
  · simp at h

theorem lead_of_front? {t : Bytes} {d : Declaration} (h : front? t = some d) :
    ∃ s x, t = s ++ x ∧ (∀ b ∈ s, Ascii.isGap b = true ∨ Ascii.isNameByte b = true) ∧
      ∃ j e, Lead x j e := by
  obtain ⟨o, ho, hd⟩ := List.exists_of_findSome?_eq_some h
  obtain ⟨hs, n, hn, hstop⟩ := mem_openings ho
  exact ⟨t.take o.typeStart, t.drop o.typeStart, (List.take_append_drop _ _).symm, hs,
    lead_of_complete? hn hstop hd⟩

theorem front?_eq_none_of_not_mem {t : Bytes} (ht : Ascii.equals ∉ t) : front? t = none := by
  rw [Option.eq_none_iff_forall_ne_some]
  intro d hd
  obtain ⟨s, x, rfl, -, j, e, hlead⟩ := lead_of_front? hd
  exact ht (List.mem_append_right _ (List.mem_of_getElem? hlead.equals))

theorem exists_lead_of_front? {u y : Bytes} {c : UInt8} {d : Declaration}
    (h : front? (u ++ c :: y) = some d) (hgap : Ascii.isGap c = false)
    (hname : Ascii.isNameByte c = false) :
    ∃ s v, u = s ++ v ∧ ∃ j e, Lead (v ++ c :: y) j e := by
  obtain ⟨s, x, hsx, hs, hlead⟩ := lead_of_front? h
  rcases List.append_eq_append_iff.mp hsx with ⟨v, rfl, hv⟩ | ⟨v, hv, rfl⟩
  · cases v with
    | nil =>
      rw [List.nil_append] at hv
      rw [← hv] at hlead
      exact ⟨u, [], by simp, hlead⟩
    | cons b v =>
      obtain rfl : b = c := (List.cons.inj hv).1.symm
      have hb := hs b (by simp)
      rw [hgap, hname] at hb
      simp at hb
  · exact ⟨s, v, hv, hlead⟩

namespace Lead
variable {t : Bytes} {j e : Nat}

/-- Unless an angle opens before it, no byte before the equals sign ends the reading. -/
theorem isBreak_eq_false (h : Lead t j e) {k : Nat} (hk : k < e) {b : UInt8} (hb : t[k]? = some b)
    (hless : ∀ l < k, t[l]? ≠ some Ascii.less) : isBreak b = false := by
  by_contra hbreak
  rw [Bool.not_eq_false] at hbreak
  obtain ⟨ha, hgap, htype, -⟩ := isBreak_iff.mp hbreak
  have hplain := h.plain k hk b hb ha
  rw [hgap, htype] at hplain
  obtain ⟨l, hl, hat⟩ : ∃ l < k, t[l]? = some Ascii.less := by simpa using hplain
  exact hless l hl hat

theorem le_length {u y : Bytes} (h : Lead (u ++ Ascii.equals :: y) j e)
    (hless : ∀ l < u.length, (u ++ Ascii.equals :: y)[l]? ≠ some Ascii.less) : e ≤ u.length := by
  by_contra hgt
  rcases h.plain u.length (by omega) Ascii.equals (by simp) (by decide) with
    hgap | htype | ⟨l, hl, hat⟩
  · exact absurd hgap (by decide)
  · exact absurd htype (by decide)
  · exact hless l hl hat

end Lead

theorem getElem?_ne_less {u : Bytes} (hu : ∀ b ∈ u, b ≠ Ascii.equals ∧ b ≠ Ascii.less) (y : Bytes) :
    ∀ l < u.length, (u ++ y)[l]? ≠ some Ascii.less := by
  intro l hl hat
  rw [List.getElem?_append_left hl] at hat
  exact (hu _ (List.mem_of_getElem? hat)).2 rfl

/-- A byte that ends the reading keeps a declaration from beginning before it. -/
theorem front?_eq_none_of_break {u : Bytes} {c : UInt8}
    (hu : ∀ b ∈ u, b ≠ Ascii.equals ∧ b ≠ Ascii.less) (hc : isBreak c = true) (y : Bytes) :
    front? (u ++ c :: y) = none := by
  obtain ⟨-, hgap, htype, hequals⟩ := isBreak_iff.mp hc
  rw [Option.eq_none_iff_forall_ne_some]
  intro d hd
  -- the reading begins before the byte and ends behind it
  obtain ⟨s, v, rfl, j, e, hlead⟩ :=
    exists_lead_of_front? hd hgap (not_isNameByte_of_not_isTypeChar htype)
  have hv : ∀ b ∈ v, b ≠ Ascii.equals ∧ b ≠ Ascii.less := fun b hb =>
    hu b (List.mem_append_right _ hb)
  have hlt : v.length < e := by
    by_contra hle
    have he := hlead.equals
    rcases Nat.lt_or_ge e v.length with hin | hout
    · rw [List.getElem?_append_left hin] at he
      exact (hv _ (List.mem_of_getElem? he)).1 rfl
    · obtain rfl : e = v.length := by omega
      exact hequals (by simpa using he)
  rw [hlead.isBreak_eq_false hlt (by simp) (getElem?_ne_less hv _)] at hc
  simp at hc

def OneWord (u : Bytes) : Prop :=
  ∃ g w q, u = g ++ w ++ q ∧ (∀ b ∈ g ++ q, Ascii.isGap b = true ∨ isBreak b = true) ∧
    ∀ b ∈ w, Ascii.isGap b = false

theorem OneWord.drop {u : Bytes} (h : OneWord u) (k : Nat) : OneWord (u.drop k) := by
  obtain ⟨g, w, q, rfl, hblank, hw⟩ := h
  refine ⟨g.drop k, w.drop (k - g.length), q.drop (k - (g ++ w).length), ?_, ?_, ?_⟩
  · rw [List.drop_append, List.drop_append]
  · intro b hb
    rcases List.mem_append.mp hb with hb | hb
    · exact hblank b (List.mem_append_left _ (List.mem_of_mem_drop hb))
    · exact hblank b (List.mem_append_right _ (List.mem_of_mem_drop hb))
  · exact fun b hb => hw b (List.mem_of_mem_drop hb)

/-- One word alone before the equals sign has no name, or no type. -/
theorem not_lead_of_oneWord {u : Bytes} (hu : ∀ b ∈ u, b ≠ Ascii.equals ∧ b ≠ Ascii.less)
    (hword : OneWord u) {y : Bytes} {j e : Nat} : ¬ Lead (u ++ Ascii.equals :: y) j e := by
  intro hlead
  have hless := getElem?_ne_less hu (Ascii.equals :: y)
  have hle := hlead.le_length hless
  have hget : ∀ k < e, (u ++ Ascii.equals :: y)[k]? = u[k]? := fun k hk =>
    List.getElem?_append_left (by omega)
  have hafter := hlead.after
  have hbefore := hlead.before
  obtain ⟨a, hza, hagap⟩ := hlead.type
  obtain ⟨b, hjb, hbgap⟩ := hlead.gap
  obtain ⟨c, hjc, hcgap⟩ := hlead.name
  rw [hget 0 (by omega)] at hza
  rw [hget j (by omega)] at hjb
  rw [hget (j + 1) hafter] at hjc
  obtain ⟨g, w, q, rfl, hblank, hw⟩ := hword
  have hblank : ∀ k < e, ∀ b, (g ++ w ++ q)[k]? = some b → b ∈ g ++ q →
      Ascii.isGap b = true := by
    intro k hk b hb hmem
    refine (hblank b hmem).resolve_right fun hbreak => ?_
    rw [hlead.isBreak_eq_false hk (by rw [hget k hk, hb]) fun l hl => hless l (by omega)] at hbreak
    simp at hbreak
  -- the type begins the word, so its gap is behind the word, and so is the name
  have hg : g = [] := by
    cases g with
    | nil => rfl
    | cons z g =>
      obtain rfl : z = a := by simpa using hza
      rw [hblank 0 (by omega) z hza (by simp)] at hagap
      simp at hagap
  subst hg
  rw [List.nil_append] at hjb hjc hblank
  have hjw : w.length ≤ j := by
    by_contra hlt
    rw [List.getElem?_append_left (by omega)] at hjb
    rw [hw b (List.mem_of_getElem? hjb)] at hbgap
    simp at hbgap
  have hmem : c ∈ q := by
    rw [List.getElem?_append_right (by omega)] at hjc
    exact List.mem_of_getElem? hjc
  rw [hblank (j + 1) hafter c hjc (by simpa using hmem)] at hcgap
  simp at hcgap

theorem front?_eq_none_of_oneWord {u : Bytes} (hu : ∀ b ∈ u, b ≠ Ascii.equals ∧ b ≠ Ascii.less)
    (hword : OneWord u) (y : Bytes) : front? (u ++ Ascii.equals :: y) = none := by
  rw [Option.eq_none_iff_forall_ne_some]
  intro d hd
  obtain ⟨s, v, rfl, j, e, hlead⟩ := exists_lead_of_front? hd (by decide) (by decide)
  have hv := hword.drop s.length
  rw [List.drop_left] at hv
  exact not_lead_of_oneWord (fun b hb => hu b (List.mem_append_right _ hb)) hv hlead

theorem run_word {p : Char → Bool} {w : Bytes} (hw : ∀ b ∈ w, b < 0x80 ∧ holdsOf p b = true)
    {c : UInt8} (hc : c < 0x80 ∧ holdsOf p c = false) (t : Bytes) :
    Bytes.run p (w ++ c :: t) = w.length := by
  rw [run_append_of_ascii hw, run_cons_ascii hc.1, hc.2]
  rfl

theorem isPrefixOf_append {w : Bytes} (hw : ∀ b ∈ w, Ascii.isNameByte b = true) {c : UInt8}
    (hc : Ascii.isNameByte c = false) (x y : Bytes) :
    w.isPrefixOf (x ++ c :: y) = w.isPrefixOf x := by
  refine Head.isPrefixOf_append_of_not_mem (fun hmem => ?_) x y
  rw [hw c hmem] at hc
  simp at hc

theorem labelChoices_eq_none {t : Bytes}
    (h : ∀ w ∈ labels, w.isPrefixOf t = true → gapLength (t.drop w.length) = 0) :
    labelChoices t = [(none, 0)] := by
  rw [labelChoices, List.filterMap_eq_nil_iff.mpr, List.nil_append]
  intro w hw
  refine if_neg ?_
  rintro ⟨hbegin, hgap⟩
  rw [h w hw hbegin] at hgap
  simp at hgap

/-- An option statement reads as a declaration of the type `option`, if at all. -/
theorem type_of_optionKeyword {g : Bytes} (hg : ∀ b ∈ g, Ascii.isGap b = true) {c : UInt8}
    (hc : c < 0x80 ∧ holdsOf isTypeChar c = false) {y : Bytes} {d : Declaration}
    (hd : front? (g ++ Field.optionKeyword ++ c :: y) = some d) :
    d.type = Field.optionKeyword := by
  have hclass : ∀ b ∈ Field.optionKeyword, b < 0x80 ∧ holdsOf isTypeChar b = true := by
    decide +kernel
  have hname := not_isNameByte_of_not_isTypeChar hc.2
  have hindent : gapLength (g ++ Field.optionKeyword ++ c :: y) = g.length := by
    rw [List.append_assoc]
    refine gapLength_append hg fun b hb => ?_
    obtain rfl := Option.some.inj hb
    decide
  have hlabels : labelChoices (Field.optionKeyword ++ c :: y) = [(none, 0)] := by
    have hno : ∀ w ∈ labels, w.isPrefixOf Field.optionKeyword = false := by decide +kernel
    refine labelChoices_eq_none fun w hw hbegin => ?_
    rw [isPrefixOf_append (isNameByte_of_mem_labels w hw) hname, hno w hw] at hbegin
    simp at hbegin
  have htypes : typeLengths (Field.optionKeyword ++ c :: y) = [6] := by
    have hno : mapKeyword.isPrefixOf Field.optionKeyword = false := by decide +kernel
    have hmap : mapTypeLength? (Field.optionKeyword ++ c :: y) = none := by
      rw [mapTypeLength?, isPrefixOf_append isNameByte_of_mem_mapKeyword hname, hno]
      simp
    rw [typeLengths, hmap, wordTypeLength?, run_word hclass hc]
    rfl
  have hopenings : openings (g ++ Field.optionKeyword ++ c :: y) =
      [⟨none, g.length, g.length + 6⟩] := by
    rw [openings, hindent, List.append_assoc, List.drop_left, hlabels]
    simp only [List.flatMap_cons, List.flatMap_nil, Nat.add_zero, List.drop_left, htypes]
    rfl
  rw [front?, hopenings, List.findSome?_singleton, complete?] at hd
  simp only at hd
  split at hd
  · obtain ⟨n, -, hn⟩ := Option.bind_eq_some_iff.mp hd
    split at hn
    · obtain rfl := Option.some.inj hn
      have hlen : g.length + 6 = (g ++ Field.optionKeyword).length := by
        rw [List.length_append]
        rfl
      simp only [Bytes.between]
      rw [hlen, List.take_left, List.drop_left]
    · simp at hn
  · simp at hd

end Declaration
end FieldTags
