import FieldTags.Proofs.Document.Rewriting
import FieldTags.Proofs.Schema.Reading

/-! The parts of a schema that renumbering leaves alone: lines of a layout, options, reserved
ranges, enum values and the braces of a block without messages. -/
namespace FieldTags
namespace Schema

/-- A byte that neither changes the mode of a scan nor the depth of blocks, and gives no value. -/
def isMute (b : UInt8) : Bool :=
  !isOpening b && !isBrace b && b != Ascii.equals && b != Ascii.less

def Mute (t : Bytes) : Prop := ∀ b ∈ t, isMute b = true

instance (t : Bytes) : Decidable (Mute t) :=
  inferInstanceAs (Decidable (∀ b ∈ t, isMute b = true))

theorem Mute.append {s t : Bytes} (hs : Mute s) (ht : Mute t) : Mute (s ++ t) := by
  intro b hb
  rcases List.mem_append.mp hb with hb | hb
  · exact hs b hb
  · exact ht b hb

theorem forall_byte {P : UInt8 → Prop} (h : ∀ n < 256, P (UInt8.ofNat n)) (b : UInt8) :
    P b := by
  have hn := h b.toNat (UInt8.toNat_lt b)
  rwa [UInt8.ofNat_toNat] at hn

section
variable {b : UInt8}

theorem isMute_of_isScalarByte (h : isScalarByte b = true) : isMute b = true := by
  have hd : ∀ n < 256, isScalarByte (UInt8.ofNat n) = true → isMute (UInt8.ofNat n) = true := by
    decide +kernel
  exact @forall_byte (fun b => isScalarByte b = true → isMute b = true) hd b h

theorem isMute_of_isSpace (h : isSpace b = true) : isMute b = true := by
  have hd : ∀ n < 256, isSpace (UInt8.ofNat n) = true → isMute (UInt8.ofNat n) = true := by
    decide +kernel
  exact @forall_byte (fun b => isSpace b = true → isMute b = true) hd b h

theorem isMute_of_isDotted (h : isDotted b = true) : isMute b = true :=
  isMute_of_isScalarByte (by simp [isScalarByte, h])

theorem isMute_of_isNameByte (h : Ascii.isNameByte b = true) : isMute b = true :=
  isMute_of_isDotted (by simp [isDotted, h])

theorem isSpace_of_isGap (h : Ascii.isGap b = true) : isSpace b = true := by
  rcases Ascii.isGap_iff.mp h with rfl | rfl <;> decide

end

theorem mute_gap (g : Gap) : Mute g.bytes :=
  fun b hb => isMute_of_isSpace (isSpace_of_isGap (g.all b hb))

theorem mute_blanks (g : Blanks) : Mute g.bytes := fun b hb => isMute_of_isSpace (g.all b hb)

theorem mute_name (n : Name) : Mute n.bytes := by
  intro b hb
  rcases List.mem_cons.mp hb with rfl | hb
  · exact isMute_of_isNameByte (Declaration.isNameByte_of_isNameStart n.isNameStart)
  · exact isMute_of_isNameByte (n.rest.all b hb)

theorem mute_dotted (w : Word isDotted) : Mute w.bytes :=
  fun b hb => isMute_of_isDotted (w.all b hb)

theorem mute_scalar (w : Word isScalarByte) : Mute w.bytes :=
  fun b hb => isMute_of_isScalarByte (w.all b hb)

/-- Units of a text that neither open nor close a block. -/
structure Flat (as : Atoms) : Prop where
  plain : Atoms.Plain as
  unopened : .byte Ascii.leftBrace ∉ as
  unclosed : .byte Ascii.rightBrace ∉ as

theorem Flat.append {as bs : Atoms} (ha : Flat as) (hb : Flat bs) : Flat (as ++ bs) := by
  refine ⟨fun a h => ?_, fun h => ?_, fun h => ?_⟩
  · exact (List.mem_append.mp h).elim (ha.plain a) (hb.plain a)
  · exact (List.mem_append.mp h).elim ha.unopened hb.unopened
  · exact (List.mem_append.mp h).elim ha.unclosed hb.unclosed

theorem flat_byte {b : UInt8} (hopening : isOpening b = false) (hbrace : isBrace b = false) :
    Flat [.byte b] := by
  simp only [isOpening, isBrace, Bool.or_eq_false_iff, beq_eq_false_iff_ne] at hopening hbrace
  obtain ⟨⟨hslash, hdouble⟩, hsingle⟩ := hopening
  obtain ⟨hleft, hright⟩ := hbrace
  refine ⟨?_, by simpa using hleft.symm, by simpa using hright.symm⟩
  intro a ha
  rw [List.mem_singleton.mp ha]
  exact ⟨hslash, hdouble, hsingle⟩

theorem Flat.depth {as : Atoms} (h : Flat as) (k : Nat) : Depth (Atoms.text as) k k :=
  Atoms.depth h.plain h.unopened h.unclosed k

theorem Flat.code {as : Atoms} (h : Flat as) : Mode.run .code (Atoms.text as) = .code :=
  Atoms.run_text h.plain

/-- Flat units that give no value. -/
structure Calm (as : Atoms) : Prop extends Flat as where
  unsigned : Atoms.Unsigned as

theorem calm_nil : Calm [] :=
  ⟨⟨by simp [Atoms.Plain], by simp, by simp⟩, by simp [Atoms.Unsigned]⟩

theorem Calm.append {as bs : Atoms} (ha : Calm as) (hb : Calm bs) : Calm (as ++ bs) :=
  ⟨ha.toFlat.append hb.toFlat,
    fun b h => (List.mem_append.mp h).elim (ha.unsigned b) (hb.unsigned b)⟩

theorem calm_byte {b : UInt8} (hb : isMute b = true) : Calm [.byte b] := by
  simp only [isMute, Bool.and_eq_true, Bool.not_eq_true', bne_iff_ne] at hb
  obtain ⟨⟨⟨hopening, hbrace⟩, hequals⟩, hless⟩ := hb
  refine ⟨flat_byte hopening hbrace, fun c hc => ?_⟩
  obtain rfl : c = b := by simpa using hc
  exact ⟨hequals, hless⟩

theorem calm_ofBytes {t : Bytes} (ht : Mute t) : Calm (Atoms.ofBytes t) := by
  induction t with
  | nil => exact calm_nil
  | cons b t ih =>
    exact (calm_byte (ht b (by simp))).append (ih fun c hc => ht c (by simp [hc]))

theorem calm_literal (l : Literal) : Calm [.literal l] :=
  ⟨⟨by simp [Atoms.Plain, Atom.Plain], by simp, by simp⟩, by simp [Atoms.Unsigned]⟩

theorem calm_comment (c : Comment) : Calm [.comment c] :=
  ⟨⟨by simp [Atoms.Plain, Atom.Plain], by simp, by simp⟩, by simp [Atoms.Unsigned]⟩

theorem Calm.quiet_byte {as : Atoms} (h : Calm as) {c : UInt8}
    (hc : c = Ascii.semicolon ∨ c = Ascii.leftBrace ∨ c = Ascii.rightBrace)
    (hheadless : Headless (Atoms.text as ++ [c])) : Quiet (Atoms.text as ++ [c]) := by
  have hclass : (Atom.byte c).Plain ∧ (Atom.byte c).event?.isSome = true ∧
      Declaration.isBreak c = true ∧ c ≠ Ascii.equals ∧ c ≠ Ascii.less := by
    rcases hc with rfl | rfl | rfl <;>
      exact ⟨⟨by decide, by decide, by decide⟩, rfl, by decide, by decide, by decide⟩
  obtain ⟨hplain, hevent, hbreak, hsign⟩ := hclass
  have htext : Atoms.text as ++ [c] = Atoms.text (as ++ [.byte c]) := by simp [Atom.text]
  have hall : Atoms.Plain (as ++ [.byte c]) := by
    intro a ha
    rcases List.mem_append.mp ha with ha | ha
    · exact h.plain a ha
    · rw [List.mem_singleton.mp ha]
      exact hplain
  rw [htext] at hheadless ⊢
  refine Atoms.quiet_of_unsigned hall hevent hbreak (Atoms.parted_byte hall hc) hheadless ?_
  intro b hb
  rcases List.mem_append.mp hb with hb | hb
  · exact h.unsigned b hb
  · rw [Atom.byte.inj (List.mem_singleton.mp hb)]
    exact hsign

theorem Calm.headless_byte {as : Atoms} (h : Calm as) {c : UInt8}
    (hc : c = Ascii.semicolon ∨ c = Ascii.rightBrace) : Headless (Atoms.text as ++ [c]) := by
  have hclass : (Atom.byte c).Plain ∧ c ≠ Ascii.leftBrace := by
    rcases hc with rfl | rfl <;> exact ⟨⟨by decide, by decide, by decide⟩, by decide⟩
  have htext : Atoms.text as ++ [c] = Atoms.text (as ++ [.byte c]) := by simp [Atom.text]
  rw [htext]
  refine Atoms.headless (fun a ha => ?_) fun hmem => ?_
  · rcases List.mem_append.mp ha with ha | ha
    · exact h.plain a ha
    · rw [List.mem_singleton.mp ha]
      exact hclass.1
  · rcases List.mem_append.mp hmem with hmem | hmem
    · exact h.unopened hmem
    · exact hclass.2 (Atom.byte.inj (List.mem_singleton.mp hmem)).symm

theorem trailing_gap (gap : Gap) {t : Bytes} (ht : Utf8.trailing t = 0) :
    Utf8.trailing (gap.bytes ++ t) = 0 := by
  rw [Utf8.trailing_append ht]
  obtain ⟨bytes, hgap⟩ := gap
  cases bytes with
  | nil => rfl
  | cons b bytes =>
    exact Utf8.trailing_cons_of_ascii (Declaration.isTypeChar_of_isGap (hgap b (by simp))).1 _

theorem Calm.part_semicolon {as : Atoms} (h : Calm as) (hfront : Utf8.trailing (Atoms.text as) = 0)
    (k : Nat) : Part k k (Atoms.text as ++ [Ascii.semicolon]) 0 0 0
      fun _ => Atoms.text as ++ [Ascii.semicolon] := by
  have hquiet := h.quiet_byte (Or.inl rfl) (h.headless_byte (Or.inl rfl))
  refine hquiet.part ((h.depth k).append h.code (fun _ _ _ _ => rfl)) ?_
  rw [Utf8.trailing_append (by decide), hfront]

theorem calm_break (b : Break) : Calm [b.atom] := by
  cases b with
  | newline => exact calm_byte (by decide)
  | comment c => exact calm_comment c

theorem part_line (gap : Gap) (b : Break) (k : Nat) :
    Part k k (gap.bytes ++ b.atom.text) 0 0 0 fun _ => gap.bytes ++ b.atom.text := by
  have hcalm := (calm_ofBytes (mute_gap gap)).append (calm_break b)
  have htext : gap.bytes ++ b.atom.text = Atoms.text (Atoms.ofBytes gap.bytes ++ [b.atom]) := by
    simp
  have hevent : b.atom.event?.isSome = true := by cases b <;> rfl
  have hbreak : b.atom.Breaks := by
    cases b with
    | newline => change Declaration.isBreak Ascii.newline = true; decide
    | comment c => trivial
  have hm : .byte 0x6D ∉ Atoms.ofBytes gap.bytes ++ [b.atom] := by
    intro hmem
    rcases List.mem_append.mp hmem with hmem | hmem
    · obtain ⟨x, hx, hxm⟩ := List.mem_map.mp hmem
      have hgap := gap.all x hx
      rw [Atom.byte.inj hxm] at hgap
      exact absurd hgap (by decide)
    · cases b with
      | newline => exact absurd (Atom.byte.inj (List.mem_singleton.mp hmem)) (by decide)
      | comment c => simp [Break.atom] at hmem
  have hfront : Utf8.trailing (gap.bytes ++ b.atom.text) = 0 := by
    refine trailing_gap gap ?_
    cases b with
    | newline => rfl
    | comment c => cases c <;> rfl
  have hdepth := hcalm.depth k
  rw [htext] at hfront ⊢
  have hquiet := Atoms.quiet_of_unsigned hcalm.plain hevent hbreak
    (Atoms.parted_line hcalm.plain hevent hm) (Atoms.headless hcalm.plain hcalm.unopened)
    hcalm.unsigned
  exact hquiet.part hdepth hfront

theorem part_rightBrace (gap : Gap) (k : Nat) :
    Part (k + 1) k (gap.bytes ++ [Ascii.rightBrace]) 0 0 0
      fun _ => gap.bytes ++ [Ascii.rightBrace] := by
  have hcalm := calm_ofBytes (mute_gap gap)
  have htext := Atoms.text_ofBytes gap.bytes
  have hquiet := hcalm.quiet_byte (Or.inr (Or.inr rfl)) (hcalm.headless_byte (Or.inr rfl))
  have hdepth := (hcalm.depth (k + 1)).append hcalm.code (depth_rightBrace k)
  rw [htext] at hquiet hdepth
  exact hquiet.part hdepth (trailing_gap gap (by decide))

theorem Phrase.atoms_induction {p : UInt8 → Bool} {P : Atoms → Prop} (hnil : P [])
    (happend : ∀ {as bs}, P as → P bs → P (as ++ bs)) (hbyte : ∀ b, p b = true → P [.byte b])
    (hliteral : ∀ l, P [.literal l]) (ph : Phrase p) : P ph.atoms := by
  obtain ⟨units⟩ := ph
  simp only [Phrase.atoms]
  induction units with
  | nil => exact hnil
  | cons u units ih =>
    have hunit : P [u.atom] := by
      cases u with
      | byte b h => exact hbyte b h
      | literal l => exact hliteral l
    exact happend hunit ih

theorem calm_phrase {p : UInt8 → Bool} (hp : ∀ b, p b = true → isMute b = true) (ph : Phrase p) :
    Calm ph.atoms :=
  ph.atoms_induction calm_nil Calm.append (fun b h => calm_byte (hp b h)) calm_literal

theorem isMute_of_isReservedByte {b : UInt8} (h : isReservedByte b = true) : isMute b = true := by
  simp only [isReservedByte, isStatementByte, Bool.and_eq_true] at h
  simp only [isMute, Bool.and_eq_true]
  exact ⟨⟨⟨h.1.1.1.2, h.1.1.1.1⟩, h.1.2⟩, h.2⟩

theorem part_reserved (gap : Gap) (r : ReservedLine) (k : Nat) :
    Part k k (gap.bytes ++ r.text) 0 0 0 fun _ => gap.bytes ++ r.text := by
  have hkeyword : Mute (Ascii.word "reserved") := by decide +kernel
  have hcalm := (calm_ofBytes ((mute_gap gap).append hkeyword)).append
    (calm_phrase (fun _ => isMute_of_isReservedByte) r.ranges)
  have htext : gap.bytes ++ r.text = Atoms.text (Atoms.ofBytes
      (gap.bytes ++ Ascii.word "reserved") ++ r.ranges.atoms) ++ [Ascii.semicolon] := by
    simp [ReservedLine.text, Phrase.bytes]
  have hfront : Utf8.trailing (Atoms.text (Atoms.ofBytes
      (gap.bytes ++ Ascii.word "reserved") ++ r.ranges.atoms)) = 0 := by
    rw [Atoms.text_append, Atoms.text_ofBytes, List.append_assoc]
    exact trailing_gap gap (Utf8.trailing_cons_of_ascii (by decide) _)
  rw [htext]
  exact hcalm.part_semicolon hfront k

theorem part_equals {u : Bytes} {post : Atoms} (hu : Mute u) (hpost : Calm post)
    (hfront : Utf8.trailing u = 0)
    (hlead : ∀ j, (j = 0 ∨ ∃ b, u[j - 1]? = some b ∧ (EventKind.inCode? b).isSome = true) →
      ∀ y, Fieldless (u.drop j ++ Ascii.equals :: y)) (k : Nat) :
    Part k k (u ++ [Ascii.equals] ++ post.text ++ [Ascii.semicolon]) 0 0 0
      fun _ => u ++ [Ascii.equals] ++ post.text ++ [Ascii.semicolon] := by
  have hflat := (((calm_ofBytes hu).toFlat.append
    (flat_byte (b := Ascii.equals) rfl rfl)).append hpost.toFlat).append
      (flat_byte (b := Ascii.semicolon) rfl rfl)
  have hatoms : Atoms.ofBytes u ++ [.byte Ascii.equals] ++ post ++ [.byte Ascii.semicolon] =
      Atoms.ofBytes u ++ .byte Ascii.equals :: post ++ [.byte Ascii.semicolon] := by simp
  have htext : u ++ [Ascii.equals] ++ post.text ++ [Ascii.semicolon] =
      Atoms.text (Atoms.ofBytes u ++ .byte Ascii.equals :: post ++ [.byte Ascii.semicolon]) := by
    simp [Atom.text]
  rw [hatoms] at hflat
  have hopen : .byte Ascii.leftBrace ∉ Atoms.ofBytes u ++ post := fun h =>
    (List.mem_append.mp h).elim (calm_ofBytes hu).unopened hpost.unopened
  have hquiet := Atoms.quiet_of_equals hflat.plain hopen hpost.unsigned hlead
  have hdepth := hflat.depth k
  rw [← htext] at hquiet hdepth
  refine hquiet.part hdepth ?_
  rw [List.append_assoc, List.append_assoc, List.singleton_append,
    Utf8.trailing_append (Utf8.trailing_cons_of_ascii (by decide) _), hfront]

theorem isSpace_class {b : UInt8} (h : isSpace b = true) :
    (b < 0x80 ∧ Bytes.holdsOf Declaration.isTypeChar b = false) ∧
      (Ascii.isGap b = true ∨ Declaration.isBreak b = true) := by
  have hd : ∀ n < 256, isSpace (UInt8.ofNat n) = true →
      (UInt8.ofNat n < 0x80 ∧ Bytes.holdsOf Declaration.isTypeChar (UInt8.ofNat n) = false) ∧
        (Ascii.isGap (UInt8.ofNat n) = true ∨ Declaration.isBreak (UInt8.ofNat n) = true) := by
    decide +kernel
  exact @forall_byte (fun b => isSpace b = true →
    (b < 0x80 ∧ Bytes.holdsOf Declaration.isTypeChar b = false) ∧
      (Ascii.isGap b = true ∨ Declaration.isBreak b = true)) hd b h

theorem oneWord_blanks {g w q : Bytes} (hg : ∀ b ∈ g, isSpace b = true)
    (hw : ∀ b ∈ w, Ascii.isGap b = false) (hq : ∀ b ∈ q, isSpace b = true) :
    Declaration.OneWord (g ++ w ++ q) := by
  refine ⟨g, w, q, rfl, fun b hb => ?_, hw⟩
  exact (List.mem_append.mp hb).elim (fun h => (isSpace_class (hg b h)).2)
    fun h => (isSpace_class (hq b h)).2

theorem fieldless_of_oneWord {u : Bytes} (hu : Mute u) (hword : Declaration.OneWord u) (j : Nat)
    (y : Bytes) : Fieldless (u.drop j ++ Ascii.equals :: y) := by
  intro v d hd
  have hsign : ∀ b ∈ u.drop j, b ≠ Ascii.equals ∧ b ≠ Ascii.less := by
    intro b hb
    have hmute := hu b (List.mem_of_mem_drop hb)
    simp only [isMute, Bool.and_eq_true, bne_iff_ne] at hmute
    exact ⟨hmute.1.2, hmute.2⟩
  rw [List.append_assoc, List.cons_append,
    Declaration.front?_eq_none_of_oneWord hsign (hword.drop j)] at hd
  simp at hd

theorem Name.not_isGap (n : Name) : ∀ b ∈ n.bytes, Ascii.isGap b = false := by
  intro b hb
  rcases List.mem_cons.mp hb with rfl | hb
  · exact Declaration.not_isGap_of_isNameByte (Declaration.isNameByte_of_isNameStart n.isNameStart)
  · exact Declaration.not_isGap_of_isNameByte (n.rest.all b hb)

theorem part_enumValue (gap : Gap) (v : EnumValue) (k : Nat) :
    Part k k (gap.bytes ++ v.text) 0 0 0 fun _ => gap.bytes ++ v.text := by
  have hmute : Mute (gap.bytes ++ v.name.bytes ++ v.beforeEquals.bytes) :=
    ((mute_gap gap).append (mute_name v.name)).append (mute_blanks v.beforeEquals)
  have hword := oneWord_blanks (fun b hb => isSpace_of_isGap (gap.all b hb)) v.name.not_isGap
    v.beforeEquals.all
  have hpost := calm_ofBytes (((mute_blanks v.afterEquals).append (mute_scalar v.value)).append
    (mute_blanks v.afterValue))
  have hfront : Utf8.trailing (gap.bytes ++ v.name.bytes ++ v.beforeEquals.bytes) = 0 := by
    rw [List.append_assoc]
    exact trailing_gap gap (Utf8.trailing_cons_of_ascii (Ascii.ascii_of_isNameByte
      (Declaration.isNameByte_of_isNameStart v.name.isNameStart)) _)
  have htext : gap.bytes ++ v.text = gap.bytes ++ v.name.bytes ++ v.beforeEquals.bytes ++
      [Ascii.equals] ++ Atoms.text (Atoms.ofBytes (v.afterEquals.bytes ++ v.value.bytes ++
        v.afterValue.bytes)) ++ [Ascii.semicolon] := by
    simp [EnumValue.text]
  rw [htext]
  exact part_equals hmute hpost hfront (fun j _ y => fieldless_of_oneWord hmute hword j y) k

/-- An option statement is no field, and what stands behind a line end in it is none. -/
theorem fieldless_option (gap : Gap) (o : OptionLine) {j : Nat}
    (hj : j = 0 ∨ ∃ b, (gap.bytes ++ Field.optionKeyword ++ (o.beforeName.bytes ++ o.name.bytes ++
      o.beforeEquals.bytes))[j - 1]? = some b ∧ (EventKind.inCode? b).isSome = true) (y : Bytes) :
    Fieldless ((gap.bytes ++ Field.optionKeyword ++ (o.beforeName.bytes ++ o.name.bytes ++
      o.beforeEquals.bytes)).drop j ++ Ascii.equals :: y) := by
  have hmute : Mute (o.beforeName.bytes ++ o.name.bytes ++ o.beforeEquals.bytes) :=
    ((mute_blanks o.beforeName.toRun).append (mute_dotted o.name)).append
      (mute_blanks o.beforeEquals)
  have hword := oneWord_blanks o.beforeName.all
    (fun b hb => (isDotted_class (o.name.all b hb)).2.2.1) o.beforeEquals.all
  rcases hj with rfl | ⟨b, hb, hevent⟩
  · intro v d hd
    obtain ⟨c, r, hcr, hc⟩ := o.beforeName.exists_cons
    rw [List.drop_zero, hcr] at hd
    simp only [List.append_assoc, List.cons_append] at hd
    rw [← List.append_assoc] at hd
    exact Declaration.type_of_optionKeyword gap.all (isSpace_class hc).1 hd
  · have hquiet : ∀ x ∈ gap.bytes ++ Field.optionKeyword, EventKind.inCode? x = none := by
      intro x hx
      rcases List.mem_append.mp hx with hx | hx
      · rcases Ascii.isGap_iff.mp (gap.all x hx) with rfl | rfl <;> rfl
      · have : ∀ x ∈ Field.optionKeyword, EventKind.inCode? x = none := by decide +kernel
        exact this x hx
    have hge : (gap.bytes ++ Field.optionKeyword).length ≤ j - 1 := by
      by_contra hlt
      rw [List.getElem?_append_left (by omega)] at hb
      rw [hquiet b (List.mem_of_getElem? hb)] at hevent
      simp at hevent
    rw [List.drop_append, List.drop_of_length_le (by omega), List.nil_append]
    exact fieldless_of_oneWord hmute hword _ y

theorem calm_optionValue (v : OptionValue) : Calm v.atoms := by
  cases v with
  | scalar w => exact calm_ofBytes (mute_scalar w)
  | literal l => exact calm_literal l

theorem part_option (gap : Gap) (o : OptionLine) (k : Nat) :
    Part k k (gap.bytes ++ o.text) 0 0 0 fun _ => gap.bytes ++ o.text := by
  have hkeyword : Mute Field.optionKeyword := by decide +kernel
  have hmute : Mute (gap.bytes ++ Field.optionKeyword ++ (o.beforeName.bytes ++ o.name.bytes ++
      o.beforeEquals.bytes)) :=
    ((mute_gap gap).append hkeyword).append (((mute_blanks o.beforeName.toRun).append
      (mute_dotted o.name)).append (mute_blanks o.beforeEquals))
  have hpost := ((calm_ofBytes (mute_blanks o.afterEquals)).append
    (calm_optionValue o.value)).append (calm_ofBytes (mute_blanks o.afterValue))
  have hfront : Utf8.trailing (gap.bytes ++ Field.optionKeyword ++ (o.beforeName.bytes ++
      o.name.bytes ++ o.beforeEquals.bytes)) = 0 := by
    rw [List.append_assoc]
    exact trailing_gap gap (Utf8.trailing_cons_of_ascii (by decide) _)
  have htext : gap.bytes ++ o.text = gap.bytes ++ Field.optionKeyword ++ (o.beforeName.bytes ++
      o.name.bytes ++ o.beforeEquals.bytes) ++ [Ascii.equals] ++ Atoms.text
        (Atoms.ofBytes o.afterEquals.bytes ++ o.value.atoms ++ Atoms.ofBytes o.afterValue.bytes) ++
          [Ascii.semicolon] := by
    simp [OptionLine.text]
  rw [htext]
  exact part_equals hmute hpost hfront (fun j hj y => fieldless_option gap o hj y) k

end Schema
end FieldTags
