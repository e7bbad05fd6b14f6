import FieldTags.Proofs.Field.Reading
import FieldTags.Proofs.Schema.Grammar

/-! A field line reads as the declaration it is written as, whatever gaps stand in it and whatever
text follows. -/
namespace FieldTags
open Bytes Declaration

theorem Bytes.run_of_chars {p : Char → Bool} {t : Bytes} {cs : List Char}
    (ht : Utf8.chars? t = some cs) (hp : ∀ c ∈ cs, p c = true) : Bytes.run p t = t.length := by
  suffices h : ∀ (skip : Nat) (cs : List Char), Utf8.charsAfter? skip t = some cs →
      (∀ c ∈ cs, p c = true) → runAfter p skip t = t.length from h 0 cs ht hp
  clear ht hp cs
  induction t with
  | nil =>
    intro skip cs _ _
    cases skip <;> rfl
  | cons b t ih =>
    intro skip cs ht hp
    cases skip with
    | succ skip =>
      have := ih skip cs ht hp
      simp only [runAfter, List.length_cons]
      omega
    | zero =>
      simp only [Utf8.charsAfter?] at ht
      cases hf : Utf8.front? (b :: t) with
      | none => simp [hf] at ht
      | some cw =>
        obtain ⟨c, w⟩ := cw
        simp only [hf] at ht
        obtain ⟨ds, hds, rfl⟩ := Option.map_eq_some_iff.mp ht
        have := ih (w - 1) ds hds fun d hd => hp d (List.mem_cons_of_mem _ hd)
        simp only [runAfter, hf, hp c (by simp), if_true, List.length_cons]
        omega

namespace Schema.CharRun
variable {p : Char → Bool} (r : CharRun p)

theorem run_append {c : UInt8} (hc : c < 0x80 ∧ holdsOf p c = false) (t : Bytes) :
    Bytes.run p (r.bytes ++ c :: t) = r.bytes.length := by
  rw [Head.run_append_stop hc.1 hc.2, run_of_chars r.reads r.all]

theorem holdsOf_of_mem {b : UInt8} (hb : b ∈ r.bytes) (ha : b < 0x80) : holdsOf p b = true := by
  obtain ⟨i, hi⟩ := List.mem_iff_getElem?.mp hb
  have hlt := (List.getElem?_eq_some_iff.mp hi).1
  rw [← run_of_chars r.reads r.all] at hlt
  exact holdsOf_of_lt_run hlt hi ha

end Schema.CharRun

theorem Declaration.nameLength_cons {b : UInt8} (hb : Ascii.isNameStart b = true) (t : Bytes) :
    Declaration.nameLength (b :: t) = 1 + Bytes.run isWord t := by
  rw [Declaration.nameLength, if_pos hb]

namespace GroupMode

theorem restLength?_units {q : Quote} (units : List (LiteralUnit q)) (t : Bytes) :
    restLength? (.quoted q) (units.flatMap LiteralUnit.text ++ t) =
      (restLength? (.quoted q) t).map ((units.flatMap LiteralUnit.text).length + ·) := by
  induction units with
  | nil => simp
  | cons u units ih =>
    cases u with
    | char b h =>
      have hnext : next (.quoted q) b = .quoted q := by simp [next, h.1, h.2.1]
      rw [List.flatMap_cons, LiteralUnit.text, List.append_assoc, List.singleton_append,
        restLength?, if_neg h.2.2, if_neg (by simp), hnext, ih, Option.map_map]
      congr 1
      funext n
      simp only [Function.comp_apply, List.length_append, List.length_singleton]
      omega
    | escape b h =>
      have hslash : next (.quoted q) Ascii.backslash = .escaped q := by simp [next]
      have hnext : next (.escaped q) b = .quoted q := rfl
      rw [List.flatMap_cons, LiteralUnit.text, List.append_assoc]
      rw [List.cons_append, List.cons_append, List.nil_append, restLength?,
        if_neg (by decide), if_neg (by simp), hslash, restLength?, if_neg h, if_neg (by simp),
        hnext, ih, Option.map_map, Option.map_map]
      congr 1
      funext n
      simp only [Function.comp_apply, List.length_append, List.length_cons, List.length_nil]
      omega

theorem restLength?_literal (l : Literal) (t : Bytes) :
    restLength? .plain (l.text ++ t) = (restLength? .plain t).map (l.text.length + ·) := by
  obtain ⟨q, units⟩ := l
  have hopen : next .plain q.byte = .quoted q := by cases q <;> rfl
  have hclose : next (.quoted q) q.byte = .plain := by cases q <;> rfl
  have hline : q.byte ≠ Ascii.newline := by cases q <;> decide
  have hbracket : q.byte ≠ Ascii.rightBracket := by cases q <;> decide
  rw [Literal.text]
  simp only [List.append_assoc, List.cons_append, List.nil_append]
  rw [restLength?, if_neg hline, if_neg (by simp [hbracket]), hopen, restLength?_units, restLength?,
    if_neg hline, if_neg (by simp), hclose, Option.map_map, Option.map_map]
  congr 1
  funext n
  simp only [Function.comp_apply, List.length_cons, List.length_append, List.length_nil]
  omega

end GroupMode

namespace Schema

theorem drop_add_of_drop {t s r : Bytes} {i : Nat} (ht : t.drop i = s ++ r) :
    t.drop (i + s.length) = r := by
  rw [← List.drop_drop, ht, List.drop_left]

theorem getElem?_of_drop {t r : Bytes} {i : Nat} {b : UInt8} (ht : t.drop i = b :: r) :
    t[i]? = some b := by
  rw [← Nat.add_zero i, ← List.getElem?_drop, ht]
  rfl

theorem restLength?_group (group : Phrase isGroupByte) (t : Bytes) :
    GroupMode.restLength? .plain (group.bytes ++ t) =
      (GroupMode.restLength? .plain t).map (group.bytes.length + ·) := by
  obtain ⟨units⟩ := group
  simp only [Phrase.bytes, Phrase.atoms]
  induction units with
  | nil => simp
  | cons u units ih =>
    have hsplit : Atoms.text ((u :: units).map PhraseUnit.atom) =
        u.atom.text ++ Atoms.text (units.map PhraseUnit.atom) := rfl
    have hunit : ∀ s, GroupMode.restLength? .plain (u.atom.text ++ s) =
        (GroupMode.restLength? .plain s).map (u.atom.text.length + ·) := by
      intro s
      cases u with
      | byte b h =>
        simp only [isGroupByte, isBrace, isOpening, Bool.and_eq_true, bne_iff_ne, ne_eq,
          Bool.not_eq_true', Bool.or_eq_false_iff, beq_eq_false_iff_ne] at h
        have hnext : GroupMode.next .plain b = .plain := by
          simp [GroupMode.next, h.1.1.1.2.1.2, h.1.1.1.2.2]
        change GroupMode.restLength? .plain (b :: s) = _
        rw [GroupMode.restLength?, if_neg h.2, if_neg (by simp [h.1.2]), hnext]
        rfl
      | literal l => exact GroupMode.restLength?_literal l s
    rw [hsplit, List.append_assoc, hunit, ih, Option.map_map]
    congr 1
    funext n
    simp only [Function.comp_apply, List.length_append]
    omega

theorem isDotted_class {b : UInt8} (h : isDotted b = true) :
    b < 0x80 ∧ holdsOf isTypeChar b = true ∧ Ascii.isGap b = false ∧ b ≠ Ascii.equals ∧
      b ≠ Ascii.less := by
  simp only [isDotted, Bool.or_eq_true, beq_iff_eq] at h
  rcases h with h | rfl
  · refine ⟨Ascii.ascii_of_isNameByte h, isTypeChar_of_isNameByte h,
      not_isGap_of_isNameByte h, ?_, ?_⟩
    · rintro rfl
      exact absurd h (by decide)
    · rintro rfl
      exact absurd h (by decide)
  · decide

theorem isGap_class {b : UInt8} (h : Ascii.isGap b = true) :
    b ≠ Ascii.equals ∧ b ≠ Ascii.less ∧ holdsOf isWord b = false ∧ Ascii.isDigit b = false := by
  rcases Ascii.isGap_iff.mp h with rfl | rfl <;> decide

theorem Word.exists_cons {p : UInt8 → Bool} (w : Word p) :
    ∃ b t, w.bytes = b :: t ∧ p b = true := by
  obtain ⟨b, t, hbt⟩ := List.exists_cons_of_ne_nil w.nonempty
  exact ⟨b, t, hbt, w.all b (by simp [hbt])⟩

theorem Run.exists_cons_append {p : UInt8 → Bool} (r : Run p) (b : UInt8) (t : Bytes) :
    ∃ c y, r.bytes ++ b :: t = c :: y ∧ (p c = true ∨ c = b) := by
  obtain ⟨bytes, hr⟩ := r
  cases bytes with
  | nil => exact ⟨b, t, rfl, Or.inr rfl⟩
  | cons c y => exact ⟨c, _, rfl, Or.inl (hr c (by simp))⟩

/-- What begins behind a gap: neither a gap nor an angle. -/
def Solid (t : Bytes) : Prop :=
  ∀ b, t.head? = some b → Ascii.isGap b = false ∧ b ≠ Ascii.less

theorem wordTypeLength?_word (w : Word isDotted) (g : Word Ascii.isGap) (t : Bytes) :
    wordTypeLength? (w.bytes ++ (g.bytes ++ t)) = some w.bytes.length := by
  obtain ⟨c, r, hcr, hc⟩ := g.exists_cons
  have hrun : Bytes.run isTypeChar (w.bytes ++ c :: (r ++ t)) = w.bytes.length :=
    run_word (fun b hb => ⟨(isDotted_class (w.all b hb)).1, (isDotted_class (w.all b hb)).2.1⟩)
      ⟨(isTypeChar_of_isGap hc).1, (isTypeChar_of_isGap hc).2.1⟩ _
  rw [wordTypeLength?, hcr, List.cons_append, hrun]
  exact if_pos (List.length_pos_of_ne_nil w.nonempty)

theorem mapTypeLength?_word (w : Word isDotted) (g : Word Ascii.isGap) {t : Bytes}
    (ht : Solid t) : mapTypeLength? (w.bytes ++ (g.bytes ++ t)) = none := by
  obtain ⟨c, r, hcr, hc⟩ := g.exists_cons
  rw [mapTypeLength?]
  refine if_neg ?_
  rintro ⟨hbegin, hless, -⟩
  rw [hcr, List.cons_append, isPrefixOf_append isNameByte_of_mem_mapKeyword
    (isTypeChar_of_isGap hc).2.2] at hbegin
  obtain ⟨v, hv⟩ := List.isPrefixOf_iff_prefix.mp hbegin
  rw [← hv, List.append_assoc, List.drop_left, ← List.getElem?_drop, List.drop_left] at hless
  cases v with
  | nil =>
    have hgap : gapLength (g.bytes ++ t) = g.bytes.length :=
      gapLength_append g.all fun b hb => (ht b hb).1
    rw [List.nil_append, hgap, List.getElem?_append_right (Nat.le_refl _), Nat.sub_self,
      ← List.head?_eq_getElem?] at hless
    exact (ht _ hless).2 rfl
  | cons b v =>
    obtain ⟨-, -, hgap, -, hne⟩ := isDotted_class (w.all b (by simp [← hv]))
    have hzero : gapLength (b :: v ++ (g.bytes ++ t)) = 0 := by
      rw [gapLength, List.cons_append, List.takeWhile_cons, hgap]
      rfl
    rw [hzero] at hless
    exact hne (by simpa using hless)

theorem mapTypeLength?_angles {g inner : Bytes} (hg : ∀ b ∈ g, Ascii.isGap b = true)
    (hinner : ∀ b ∈ inner, inAngles b = true) (t : Bytes) :
    mapTypeLength? (mapKeyword ++ (g ++ (Ascii.less :: (inner ++ (Ascii.greater :: t))))) =
      some (mapKeyword.length + g.length + 1 + inner.length + 1) := by
  have hgap : gapLength (g ++ (Ascii.less :: (inner ++ (Ascii.greater :: t)))) = g.length := by
    refine gapLength_append hg fun b hb => ?_
    obtain rfl : Ascii.less = b := by simpa using hb
    rfl
  generalize htext : mapKeyword ++ (g ++ (Ascii.less :: (inner ++ (Ascii.greater :: t)))) = s
  have hleft : gapLength (s.drop mapKeyword.length) = g.length := by
    rw [← htext, List.drop_left, hgap]
  have hless : s[mapKeyword.length + g.length]? = some Ascii.less := by
    rw [← htext, ← List.getElem?_drop, List.drop_left,
      List.getElem?_append_right (Nat.le_refl _), Nat.sub_self]
    rfl
  have hafter : s.drop (mapKeyword.length + g.length + 1) = inner ++ Ascii.greater :: t := by
    rw [← List.drop_drop, ← List.drop_drop, ← htext, List.drop_left, List.drop_left,
      List.drop_succ_cons, List.drop_zero]
  have hangles : (s.drop (mapKeyword.length + g.length + 1)).takeWhile inAngles = inner := by
    have hstop : inAngles Ascii.greater = false := by decide
    rw [hafter, List.takeWhile_append_of_pos hinner, List.takeWhile_cons, hstop,
      if_neg Bool.false_ne_true, List.append_nil]
  have hgreater : s[mapKeyword.length + g.length + 1 + inner.length]? = some Ascii.greater := by
    rw [← List.getElem?_drop, hafter, List.getElem?_append_right (Nat.le_refl _), Nat.sub_self]
    rfl
  have hbegin : mapKeyword.isPrefixOf s = true := by
    rw [← htext]
    exact List.isPrefixOf_iff_prefix.mpr (List.prefix_append _ _)
  rw [mapTypeLength?]
  simp only [hleft, hangles]
  rw [if_pos ⟨hbegin, hless, hgreater⟩]

theorem inAngles_of_isGap {b : UInt8} (h : Ascii.isGap b = true) : inAngles b = true := by
  rcases Ascii.isGap_iff.mp h with rfl | rfl <;> decide

theorem inAngles_of_isDotted {b : UInt8} (h : isDotted b = true) : inAngles b = true := by
  rw [inAngles, Bool.and_eq_true, bne_iff_ne, bne_iff_ne]
  constructor
  · rintro rfl
    exact absurd h (by decide)
  · rintro rfl
    exact absurd h (by decide)

theorem mapTypeLength?_map (beforeLess beforeKey : Gap) (key : Word isDotted)
    (afterKey beforeValue : Gap) (value : Word isDotted) (afterValue : Gap) (t : Bytes) :
    let type := FieldType.map beforeLess beforeKey key afterKey beforeValue value afterValue
    mapTypeLength? (type.bytes ++ t) = some type.bytes.length := by
  intro type
  have hinner : ∀ b ∈ beforeKey.bytes ++ key.bytes ++ afterKey.bytes ++ [0x2C] ++
      beforeValue.bytes ++ value.bytes ++ afterValue.bytes, inAngles b = true := by
    intro b hb
    simp only [List.mem_append, List.mem_singleton] at hb
    rcases hb with (((((hb | hb) | hb) | rfl) | hb) | hb) | hb
    · exact inAngles_of_isGap (beforeKey.all b hb)
    · exact inAngles_of_isDotted (key.all b hb)
    · exact inAngles_of_isGap (afterKey.all b hb)
    · decide
    · exact inAngles_of_isGap (beforeValue.all b hb)
    · exact inAngles_of_isDotted (value.all b hb)
    · exact inAngles_of_isGap (afterValue.all b hb)
  have hmap := mapTypeLength?_angles beforeLess.all hinner t
  have htext : type.bytes ++ t = mapKeyword ++ (beforeLess.bytes ++ (Ascii.less ::
      ((beforeKey.bytes ++ key.bytes ++ afterKey.bytes ++ [0x2C] ++ beforeValue.bytes ++
        value.bytes ++ afterValue.bytes) ++ (Ascii.greater :: t)))) := by
    simp [type, FieldType.bytes]
  rw [htext, hmap]
  simp [type, FieldType.bytes]
  omega

theorem typeLengths_type (type : FieldType) (g : Word Ascii.isGap) {t : Bytes} (ht : Solid t) :
    ∃ ns, typeLengths (type.bytes ++ (g.bytes ++ t)) = type.bytes.length :: ns := by
  cases type with
  | word w h =>
    refine ⟨[], ?_⟩
    rw [typeLengths, FieldType.bytes, mapTypeLength?_word w g ht, wordTypeLength?_word]
    rfl
  | map beforeLess beforeKey key afterKey beforeValue value afterValue =>
    rw [typeLengths, mapTypeLength?_map]
    exact ⟨_, rfl⟩

end Schema
end FieldTags
