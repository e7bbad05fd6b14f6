import FieldTags.Field.Body
import FieldTags.Proofs.Shape.Message

/-! A declaration of a text is read part by part where its shape has one. -/
namespace FieldTags

namespace GroupMode

theorem next_of_isDigit (m : GroupMode) {b : UInt8} (h : Ascii.isDigit b = true) :
    m.next b = m.next Piece.zero := by
  have hd : b ≠ Ascii.doubleQuote := Ascii.ne_of_isDigit h (by decide)
  have hs : b ≠ Ascii.singleQuote := Ascii.ne_of_isDigit h (by decide)
  have hb : b ≠ Ascii.backslash := Ascii.ne_of_isDigit h (by decide)
  cases m with
  | plain => simp only [next, hd, hs]; rfl
  | quoted q =>
    have hq : b ≠ q.byte := by cases q <;> assumption
    simp only [next, hb, hq]
    cases q <;> rfl
  | escaped q => rfl

theorem next_zero_next_zero (m : GroupMode) :
    (m.next Piece.zero).next Piece.zero = m.next Piece.zero := by
  cases m with
  | plain => rfl
  | quoted q => cases q <;> rfl
  | escaped q => cases q <;> rfl

theorem restLength?_cons_digit (m : GroupMode) {b : UInt8} (h : Ascii.isDigit b = true)
    (t : Bytes) : restLength? m (b :: t) = (restLength? (m.next Piece.zero) t).map (1 + ·) := by
  have hn : b ≠ Ascii.newline := Ascii.ne_of_isDigit h (by decide)
  have hr : b ≠ Ascii.rightBracket := Ascii.ne_of_isDigit h (by decide)
  simp only [restLength?, hn, hr, and_false, if_false, next_of_isDigit m h]

theorem restLength?_digits (m : GroupMode) {d : Bytes} (hne : d ≠ [])
    (hd : ∀ b ∈ d, Ascii.isDigit b = true) (t : Bytes) :
    restLength? m (d ++ t) = (restLength? (m.next Piece.zero) t).map (d.length + ·) := by
  induction d generalizing m with
  | nil => exact absurd rfl hne
  | cons b d ih =>
    rw [List.cons_append, restLength?_cons_digit m (hd b (by simp))]
    by_cases hdn : d = []
    · simp [hdn]
    · rw [ih _ hdn fun c hc => hd c (by simp [hc]), next_zero_next_zero, Option.map_map]
      congr 1
      funext n
      simp only [Function.comp_apply, List.length_cons]
      omega

end GroupMode

namespace Pieces
open Utf8 Bytes Declaration

theorem groupRestLength?_text (m : GroupMode) (ps : Pieces) :
    GroupMode.restLength? m (text ps) =
      (GroupMode.restLength? m (shape ps)).map (offset ps) := by
  have hmap : ∀ (p : Piece) (ps : Pieces) (o : Option Nat),
      (o.map (offset ps)).map (p.text.length + ·) = (o.map (1 + ·)).map (offset (p :: ps)) := by
    intro p ps o
    rw [Option.map_map, Option.map_map]
    congr 1
    funext n
    rw [Function.comp_apply, Function.comp_apply, Nat.add_comm 1, offset_cons_succ]
  induction ps generalizing m with
  | nil => rfl
  | cons p ps ih =>
    cases p with
    | plain b hb =>
      change GroupMode.restLength? m (b :: text ps) =
        (GroupMode.restLength? m (b :: shape ps)).map _
      unfold GroupMode.restLength?
      split
      · rfl
      · split
        · rw [Option.map_some, offset_cons_succ, offset_zero]
          rfl
        · rw [ih]
          exact hmap (.plain b hb) ps _
    | number n =>
      rw [text_cons, shape_cons, Piece.mark,
        GroupMode.restLength?_cons_digit m Piece.isDigit_zero]
      rw [Piece.text, GroupMode.restLength?_digits m n.nonempty n.isDigit, ih]
      exact hmap (.number n) ps _

theorem optionsLength?_text (ps : Pieces) :
    optionsLength? (text ps) = (optionsLength? (shape ps)).map (offset ps) := by
  cases ps with
  | nil => rfl
  | cons p ps =>
    cases p with
    | plain b hb =>
      change optionsLength? (b :: text ps) = (optionsLength? (b :: shape ps)).map _
      by_cases hleft : b = Ascii.leftBracket
      · simp only [optionsLength?, hleft, if_true]
        rw [groupRestLength?_text, Option.map_map, Option.map_map]
        congr 1
        funext n
        rw [Function.comp_apply, Function.comp_apply, Nat.add_comm 1 n, offset_cons_succ]
        rfl
      · simp [optionsLength?, hleft]
    | number n =>
      obtain ⟨b, t, hbt⟩ := List.exists_cons_of_ne_nil n.nonempty
      have hb : b ≠ Ascii.leftBracket :=
        Ascii.ne_of_isDigit (n.isDigit b (by simp [hbt])) (by decide)
      have hz : Piece.zero ≠ Ascii.leftBracket := by decide
      simp [Piece.text, Piece.mark, hbt, optionsLength?, hb, hz]

theorem blind_of_not_digit {p : UInt8 → Bool} {v : Bool}
    (h : ∀ b, Ascii.isDigit b = true → p b = v) : Blind p := by
  intro b hb
  rw [h b hb, h _ Piece.isDigit_zero]

theorem blind_isGap : Blind Ascii.isGap := by
  refine blind_of_not_digit (v := false) fun b hb => ?_
  have hs : b ≠ Ascii.space := Ascii.ne_of_isDigit hb (by decide)
  have ht : b ≠ Ascii.tab := Ascii.ne_of_isDigit hb (by decide)
  simp [Ascii.isGap, hs, ht]

theorem blind_inAngles : Blind inAngles := by
  refine blind_of_not_digit (v := true) fun b hb => ?_
  have hg : b ≠ Ascii.greater := Ascii.ne_of_isDigit hb (by decide)
  have hn : b ≠ Ascii.newline := Ascii.ne_of_isDigit hb (by decide)
  simp [inAngles, hg, hn]

theorem blindChars_isTypeChar : BlindChars isTypeChar := by
  intro b hb
  have hw : holdsOf isWord b = true := (Ascii.isNameByte_class (isNameByte_of_isDigit hb)).2
  have ht : holdsOf isTypeChar b = true := by
    have hw : isWord (Char.ofNat b.toNat) = true := hw
    simp [holdsOf, isTypeChar, hw]
  rw [ht]
  rfl

theorem gapLength_text (ps : Pieces) (k : Nat) :
    gapLength ((text ps).drop (offset ps k)) =
      offset (ps.drop k) (gapLength ((shape ps).drop k)) := by
  rw [drop_offset, gapLength, length_takeWhile_text blind_isGap, shape_drop]
  rfl

theorem nameLength_text (ps : Pieces) (k : Nat) :
    nameLength ((text ps).drop (offset ps k)) =
      offset (ps.drop k) (nameLength ((shape ps).drop k)) := by
  rw [drop_offset, ← shape_drop]
  generalize ps.drop k = qs
  cases qs with
  | nil => rfl
  | cons p qs =>
    cases p with
    | plain b hb =>
      change nameLength (b :: text qs) = offset _ (nameLength (b :: shape qs))
      cases hs : Ascii.isNameStart b with
      | true =>
        simp only [nameLength, hs, if_true]
        rw [run_text blindChars_isWord, Nat.add_comm 1 (Bytes.run isWord (shape qs)),
          offset_cons_succ]
        rfl
      | false => simp [nameLength, hs]
    | number n =>
      obtain ⟨b, t, hbt⟩ := List.exists_cons_of_ne_nil n.nonempty
      have hb := isNameStart_of_isDigit (n.isDigit b (by simp [hbt]))
      have hz := isNameStart_of_isDigit Piece.isDigit_zero
      simp [Piece.text, Piece.mark, hbt, nameLength, hb, hz]

theorem isDigit_of_mem_labels : ∀ w ∈ labels, ∀ b ∈ w, Ascii.isDigit b = false := by
  decide +kernel

theorem labelChoices_text (ps : Pieces) :
    labelChoices (text ps) =
      (labelChoices (shape ps)).map fun c => (c.1, offset ps c.2) := by
  rw [labelChoices, labelChoices, List.map_append, List.map_filterMap, List.map_singleton,
    offset_zero]
  congr 1
  refine List.filterMap_congr fun w hw => ?_
  have hd := isDigit_of_mem_labels w hw
  rw [isPrefixOf_text hd]
  by_cases hp : w.isPrefixOf (shape ps) = true
  · have hgap := gapLength_text ps w.length
    have hlen := offset_of_isPrefixOf hd hp
    rw [hlen] at hgap
    simp only [hp, hgap, true_and, offset_pos_iff]
    split
    · rw [Option.map_some, offset_add, hlen]
    · rfl
  · simp [hp]

theorem mapTypeLength?_text (ps : Pieces) :
    mapTypeLength? (text ps) = (mapTypeLength? (shape ps)).map (offset ps) := by
  have hd : ∀ b ∈ mapKeyword, Ascii.isDigit b = false := by decide +kernel
  have hless : Ascii.isDigit Ascii.less = false := by decide
  have hgreater : Ascii.isDigit Ascii.greater = false := by decide
  unfold mapTypeLength?
  rw [isPrefixOf_text hd]
  by_cases hp : mapKeyword.isPrefixOf (shape ps) = true
  · have hgap := gapLength_text ps mapKeyword.length
    have hlen := offset_of_isPrefixOf hd hp
    have hleft : mapKeyword.length + gapLength ((text ps).drop mapKeyword.length) =
        offset ps (mapKeyword.length + gapLength ((shape ps).drop mapKeyword.length)) := by
      rw [hlen] at hgap
      rw [hgap, offset_add, hlen]
    simp only [hp, hleft, true_and]
    generalize mapKeyword.length + gapLength ((shape ps).drop mapKeyword.length) = left
    by_cases hl : (shape ps)[left]? = some Ascii.less
    · have hsucc := offset_succ_of_getElem? hless hl
      have hin : ((text ps).drop (offset ps left + 1)).takeWhile inAngles =
          (text (ps.drop (left + 1))).takeWhile inAngles := by
        rw [← hsucc, drop_offset]
      rw [hin, length_takeWhile_text blind_inAngles, ← hsucc, ← offset_add]
      simp only [getElem?_offset hless, getElem?_offset hgreater, shape_drop]
      split
      · rename_i h
        rw [Option.map_some, offset_succ_of_getElem? hgreater h.2]
      · rfl
    · have ht : (text ps)[offset ps left]? ≠ some Ascii.less := by
        rw [ne_eq, getElem?_offset hless]
        exact hl
      simp [hl, ht]
  · simp [hp]

theorem wordTypeLength?_text (ps : Pieces) :
    wordTypeLength? (text ps) = (wordTypeLength? (shape ps)).map (offset ps) := by
  unfold wordTypeLength?
  rw [run_text blindChars_isTypeChar]
  simp only [offset_pos_iff]
  split
  · rfl
  · rfl

theorem typeLengths_text (ps : Pieces) :
    typeLengths (text ps) = (typeLengths (shape ps)).map (offset ps) := by
  rw [typeLengths, typeLengths, mapTypeLength?_text, wordTypeLength?_text, List.map_append]
  cases mapTypeLength? (shape ps) <;> cases wordTypeLength? (shape ps) <;> rfl

end Pieces

def Declaration.Opening.move (φ : Nat → Nat) (o : Declaration.Opening) : Declaration.Opening :=
  ⟨o.label, φ o.typeStart, φ o.typeStop⟩

namespace Pieces
open Declaration

theorem openings_text (ps : Pieces) :
    openings (text ps) = (openings (shape ps)).map (Opening.move (offset ps)) := by
  have hindent : gapLength (text ps) = offset ps (gapLength (shape ps)) := by
    simpa using gapLength_text ps 0
  rw [openings, openings, List.map_flatMap, hindent, drop_offset, labelChoices_text, shape_drop,
    List.flatMap_map]
  refine List.flatMap_congr fun c _ => ?_
  simp only [← offset_add]
  rw [drop_offset, typeLengths_text, shape_drop, List.map_map, List.map_map]
  refine List.map_congr_left fun n _ => ?_
  simp only [Function.comp_apply, Opening.move]
  rw [offset_add ps _ n]

theorem takeWhile_text {p : UInt8 → Bool} (hp : Blind p) (ps : Pieces) :
    (text ps).takeWhile p = text (ps.take ((shape ps).takeWhile p).length) := by
  rw [← take_offset, ← length_takeWhile_text hp]
  exact List.prefix_iff_eq_take.mp (List.takeWhile_prefix p)

theorem text_eq_iff {w : Bytes} (hw : ∀ b ∈ w, Ascii.isDigit b = false) {ps : Pieces} :
    text ps = w ↔ shape ps = w := by
  induction w generalizing ps with
  | nil =>
    cases ps with
    | nil => simp
    | cons p ps =>
      have := p.text_length_pos
      have hne : p.text ≠ [] := List.ne_nil_of_length_pos this
      simp [hne]
  | cons c w ih =>
    have hc := hw c (by simp)
    cases ps with
    | nil => simp
    | cons p ps =>
      cases p with
      | plain b hb => simp [Piece.text, Piece.mark, ih fun b hb => hw b (by simp [hb])]
      | number n =>
        obtain ⟨b, t, hbt⟩ := List.exists_cons_of_ne_nil n.nonempty
        have hb : b ≠ c := Ascii.ne_of_isDigit (n.isDigit b (by simp [hbt])) hc
        have hz : Piece.zero ≠ c := Ascii.ne_of_isDigit Piece.isDigit_zero hc
        simp [Piece.text, Piece.mark, hbt, hb, hz]

/-- The declaration `d` of a text reads part by part what `e` reads in the shape. -/
structure Mirrors (ps : Pieces) (d e : Declaration) : Prop where
  tagStart : d.tagStart = offset ps e.tagStart
  tagStop : d.tagStart + d.tag.length = offset ps (e.tagStart + e.tag.length)
  tag : d.tag = text (ps.between e.tagStart (e.tagStart + e.tag.length))
  length : d.length = offset ps e.length
  option : d.type = Field.optionKeyword ↔ e.type = Field.optionKeyword

theorem blind_isDigit : Blind Ascii.isDigit := fun b hb => by rw [hb, Piece.isDigit_zero]

theorem takeWhile_isDigit_text (ps : Pieces) (k : Nat) {tag zeros : Bytes}
    (htag : ((text ps).drop (offset ps k)).takeWhile Ascii.isDigit = tag)
    (hzeros : ((shape ps).drop k).takeWhile Ascii.isDigit = zeros) :
    tag = text (ps.between k (k + zeros.length)) ∧
      tag.length = offset (ps.drop k) zeros.length ∧ (tag = [] ↔ zeros = []) := by
  have hlength : tag.length = offset (ps.drop k) zeros.length := by
    rw [← htag, ← hzeros, drop_offset, length_takeWhile_text blind_isDigit, shape_drop]
  refine ⟨?_, hlength, ?_⟩
  · rw [← htag, ← hzeros, drop_offset, takeWhile_text blind_isDigit, shape_drop, List.take_drop]
    rfl
  · have hpos : 0 < offset (ps.drop k) zeros.length ↔ 0 < zeros.length := offset_pos_iff
    rw [← hlength] at hpos
    rw [← List.length_eq_zero_iff, ← List.length_eq_zero_iff]
    omega

theorem complete?_text (ps : Pieces) (o : Opening) :
    Option.Rel (Mirrors ps) (complete? (text ps) (o.move (offset ps)))
      (complete? (shape ps) o) := by
  have hequals : Ascii.isDigit Ascii.equals = false := by decide
  have hsemi : Ascii.isDigit Ascii.semicolon = false := by decide
  unfold complete?
  simp only [Opening.move, gapLength_text, nameLength_text, ← offset_add]
  generalize o.typeStop + gapLength ((shape ps).drop o.typeStop) = nameStart
  generalize nameStart + Declaration.nameLength ((shape ps).drop nameStart) = nameStop
  generalize nameStop + gapLength ((shape ps).drop nameStop) = equals
  by_cases heq : (shape ps)[equals]? = some Ascii.equals
  · rw [← offset_succ_of_getElem? hequals heq, gapLength_text, ← offset_add]
    generalize equals + 1 + gapLength ((shape ps).drop (equals + 1)) = tagStart
    generalize htag : ((text ps).drop (offset ps tagStart)).takeWhile Ascii.isDigit = tag
    generalize hzeros : ((shape ps).drop tagStart).takeWhile Ascii.isDigit = zeros
    obtain ⟨htext, hlength, hempty⟩ := takeWhile_isDigit_text ps tagStart htag hzeros
    rw [hlength, ← offset_add, gapLength_text, ← offset_add]
    generalize hgroup : tagStart + zeros.length +
      gapLength ((shape ps).drop (tagStart + zeros.length)) = group
    rw [drop_offset, optionsLength?_text, shape_drop]
    simp only [offset_lt_iff, getElem?_offset hequals, ne_eq, hempty]
    split
    · cases hn : optionsLength? ((shape ps).drop group) with
      | none => exact .none
      | some n =>
        simp only [Option.map_some, Option.bind_some, ← offset_add, gapLength_text]
        generalize group + n + gapLength ((shape ps).drop (group + n)) = stop
        simp only [getElem?_offset hsemi]
        split
        · rename_i hstop
          have htype : ∀ b ∈ Field.optionKeyword, Ascii.isDigit b = false := by
            decide +kernel
          have hsucc := offset_succ_of_getElem? hsemi hstop
          refine .some ⟨rfl, ?_, htext, hsucc.symm, ?_⟩
          · change offset ps tagStart + tag.length = offset ps (tagStart + zeros.length)
            rw [hlength, offset_add]
          · change (text ps).between _ _ = _ ↔ (shape ps).between _ _ = _
            rw [between_offset, text_eq_iff htype, shape_between]
        · exact .none
    · exact .none
  · have hne : (text ps)[offset ps equals]? ≠ some Ascii.equals := by
      rw [ne_eq, getElem?_offset hequals]
      exact heq
    simp only [heq, hne, false_and, and_false, if_false]
    exact .none

theorem findSome?_rel {α β γ δ : Type} {R : β → δ → Prop} {f : α → Option β} {g : γ → Option δ}
    {φ : γ → α} (h : ∀ c, Option.Rel R (f (φ c)) (g c)) (l : List γ) :
    Option.Rel R ((l.map φ).findSome? f) (l.findSome? g) := by
  induction l with
  | nil => exact .none
  | cons c l ih =>
    rw [List.map_cons, List.findSome?_cons, List.findSome?_cons]
    have hc := h c
    generalize f (φ c) = x at hc ⊢
    generalize g c = y at hc ⊢
    cases hc with
    | some hr => exact .some hr
    | none => exact ih

/-- A text has a declaration at its front exactly when its shape has one. -/
theorem front?_declaration_text (ps : Pieces) :
    Option.Rel (Mirrors ps) (Declaration.front? (text ps)) (Declaration.front? (shape ps)) := by
  rw [Declaration.front?, Declaration.front?, openings_text]
  exact findSome?_rel (complete?_text ps) _

end Pieces
end FieldTags
