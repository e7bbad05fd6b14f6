import FieldTags.Proofs.Schema.FieldLine
import FieldTags.Proofs.Schema.Statements

/-! A field line as a part of a body: it is one direct field, and its tag alone changes. -/
namespace FieldTags

theorem fieldsFrom_eq_nil_of_lt {body : Bytes} {nested : List Block} {free : Nat}
    {starts : List Nat} (h : ∀ k ∈ starts, k < free) :
    fieldsFrom body nested free starts = [] := by
  induction starts with
  | nil => rfl
  | cons start starts ih =>
    rw [fieldsFrom, if_pos (Or.inl (h start (by simp))), ih fun k hk => h k (by simp [hk])]

theorem Edit.substitute_one (a b c new : Bytes) (hb : b ≠ []) :
    Edit.substitute [⟨a.length, a.length + b.length, new⟩] (a ++ b ++ c) = a ++ new ++ c := by
  have hpos := List.length_pos_of_ne_nil hb
  have hasc : Edit.Ascending 0 (a ++ b ++ c).length
      [⟨a.length, a.length + b.length, new⟩] := by
    refine ⟨Nat.zero_le _, by simp only; omega, ?_, trivial⟩
    simp only [List.length_append]
    omega
  have htake : (a ++ b ++ c).take a.length = a := by rw [List.append_assoc, List.take_left]
  have hdrop : (a ++ b ++ c).drop (a.length + b.length) = c := by
    rw [← List.length_append, List.drop_left]
  rw [← Edit.applyAll_eq_substitute hasc, Edit.applyAll, Edit.applyFrom, Edit.applyFrom]
  simp only [Nat.sub_zero, htake, hdrop]

namespace Schema

/-- A byte that neither changes the mode of a scan nor the depth of blocks. -/
def isTame (b : UInt8) : Bool := !isOpening b && !isBrace b

def Tame (t : Bytes) : Prop := ∀ b ∈ t, isTame b = true

theorem Tame.append {s t : Bytes} (hs : Tame s) (ht : Tame t) : Tame (s ++ t) := by
  intro b hb
  exact (List.mem_append.mp hb).elim (hs b) (ht b)

theorem tame_byte {b : UInt8} (hb : isTame b = true) : Tame [b] := by
  intro c hc
  rw [List.mem_singleton.mp hc]
  exact hb

theorem Mute.tame {t : Bytes} (ht : Mute t) : Tame t := by
  intro b hb
  have := ht b hb
  simp only [isMute, Bool.and_eq_true] at this
  simp only [isTame, Bool.and_eq_true]
  exact this.1.1

instance (t : Bytes) : Decidable (Tame t) :=
  inferInstanceAs (Decidable (∀ b ∈ t, isTame b = true))

theorem flat_ofBytes {t : Bytes} (ht : Tame t) : Flat (Atoms.ofBytes t) := by
  induction t with
  | nil => exact calm_nil.toFlat
  | cons b t ih =>
    have hb := ht b (by simp)
    simp only [isTame, Bool.and_eq_true, Bool.not_eq_true'] at hb
    exact (flat_byte hb.1 hb.2).append (ih fun c hc => ht c (by simp [hc]))

theorem tame_digits (n : Numeral) : Tame n.digits := fun b hb =>
  Mute.tame (fun b hb => isMute_of_isNameByte (by simp [Ascii.isNameByte, n.isDigit b hb])) b hb

theorem tame_fieldName (n : FieldName) : Tame n.bytes := by
  have hclass : ∀ b, (b < 0x80 → Bytes.holdsOf isWord b = true) → isTame b = true := by
    have hd : ∀ n < 256, (UInt8.ofNat n < 0x80 → Bytes.holdsOf isWord (UInt8.ofNat n) = true) →
        isTame (UInt8.ofNat n) = true := by decide +kernel
    exact @forall_byte
      (fun b => (b < 0x80 → Bytes.holdsOf isWord b = true) → isTame b = true) hd
  exact fun b hb => hclass b (FieldLine.isWord_of_mem_name n hb)

theorem tame_fieldType (t : FieldType) : Tame t.bytes := by
  cases t with
  | word w h => exact (mute_dotted w).tame
  | map beforeLess beforeKey key afterKey beforeValue value afterValue =>
    have hinner := (((((mute_gap beforeKey).append (mute_dotted key)).append
      (mute_gap afterKey)).append (t := [0x2C]) (by decide +kernel)).append
        (mute_gap beforeValue)).append (mute_dotted value) |>.append (mute_gap afterValue)
    have hkeyword : Tame Declaration.mapKeyword := by decide +kernel
    exact ((((hkeyword.append (mute_gap beforeLess).tame).append
      (tame_byte (b := Ascii.less) (by decide))).append hinner.tame).append
        (tame_byte (b := Ascii.greater) (by decide)))

theorem flat_phrase {p : UInt8 → Bool} (hp : ∀ b, p b = true → isTame b = true) (ph : Phrase p) :
    Flat ph.atoms := by
  refine ph.atoms_induction calm_nil.toFlat Flat.append (fun b h => ?_) fun l =>
    (calm_literal l).toFlat
  have hb := hp b h
  simp only [isTame, Bool.and_eq_true, Bool.not_eq_true'] at hb
  exact flat_byte hb.1 hb.2

theorem isTame_of_isGroupByte {b : UInt8} (h : isGroupByte b = true) : isTame b = true := by
  simp only [isGroupByte, Bool.and_eq_true] at h
  simp only [isTame, Bool.and_eq_true]
  exact ⟨h.1.1.1.2, h.1.1.1.1⟩

theorem isTame_of_isStatementByte {b : UInt8} (h : isStatementByte b = true) :
    isTame b = true := by
  simp only [isStatementByte, Bool.and_eq_true] at h
  simp only [isTame, Bool.and_eq_true]
  exact ⟨h.1.2, h.1.1⟩

namespace FieldLine

theorem tame_lead (f : FieldLine) : Tame f.lead := by
  have hlabel : Tame f.labelBytes := by
    rcases hf : f.label with _ | ⟨label, gap⟩
    · rw [show f.labelBytes = [] by simp [labelBytes, hf]]
      exact fun b hb => absurd hb List.not_mem_nil
    · have hword : Tame label.bytes := by cases label <;> decide +kernel
      rw [show f.labelBytes = label.bytes ++ gap.bytes by simp [labelBytes, hf]]
      exact hword.append (mute_gap gap.toRun).tame
  exact (((((hlabel.append (tame_fieldType f.type)).append
    (mute_gap f.beforeName.toRun).tame).append (tame_fieldName f.name)).append
      (mute_gap f.beforeEquals).tame).append (tame_byte (b := Ascii.equals) (by decide))).append
        (mute_gap f.afterEquals).tame

def trailAtoms (f : FieldLine) : Atoms :=
  Atoms.ofBytes f.afterTag.bytes ++
    match f.options with
    | none => []
    | some (group, gap) =>
      [.byte Ascii.leftBracket] ++ group.atoms ++ [.byte Ascii.rightBracket] ++
        Atoms.ofBytes gap.bytes

theorem text_trailAtoms (f : FieldLine) : f.trail = f.trailAtoms.text ++ [Ascii.semicolon] := by
  rcases hf : f.options with _ | ⟨group, gap⟩
  · simp [trail, optionsBytes, trailAtoms, hf]
  · simp [trail, optionsBytes, trailAtoms, hf, Phrase.bytes, Atom.text]

theorem flat_trailAtoms (f : FieldLine) : Flat f.trailAtoms := by
  refine (calm_ofBytes (mute_gap f.afterTag)).toFlat.append ?_
  rcases f.options with _ | ⟨group, gap⟩
  · exact calm_nil.toFlat
  · have hgroup := flat_phrase (fun _ => isTame_of_isGroupByte) group
    exact (((flat_byte rfl rfl).append hgroup).append (flat_byte rfl rfl)).append
      (calm_ofBytes (mute_gap gap)).toFlat

def atoms (f : FieldLine) (gap : Gap) : Atoms :=
  Atoms.ofBytes (gap.bytes ++ f.lead ++ f.tag.digits) ++ f.trailAtoms

theorem gap_text (f : FieldLine) (gap : Gap) :
    gap.bytes ++ f.text = Atoms.text (f.atoms gap ++ [.byte Ascii.semicolon]) := by
  simp [text, text_trailAtoms, atoms, Atom.text]

theorem flat_atoms (f : FieldLine) (gap : Gap) : Flat (f.atoms gap ++ [.byte Ascii.semicolon]) :=
  ((flat_ofBytes (((mute_gap gap).tame.append f.tame_lead).append (tame_digits f.tag))).append
    f.flat_trailAtoms).append (flat_byte rfl rfl)

theorem type_ne_optionKeyword (t : FieldType) : t.bytes ≠ Field.optionKeyword := by
  cases t with
  | word w h => exact h
  | map =>
    intro h
    have hfirst : (0x6D : UInt8) = 0x6F := (List.cons.inj h).1
    exact absurd hfirst (by decide)

theorem fieldsFrom_text (f : FieldLine) (gap : Gap) (u : Bytes) :
    fieldsFrom (gap.bytes ++ f.text ++ u) [] 0 (statementStarts (gap.bytes ++ f.text)) =
      [⟨0, f.declaration gap⟩] := by
  have hfront := f.front?_text gap u
  rw [← List.append_assoc] at hfront
  have hlater : ∀ k ∈ ((events (gap.bytes ++ f.text)).map (·.offset + 1)).filter
      (· < (gap.bytes ++ f.text).length), k < 0 + (f.declaration gap).length := by
    intro k hk
    have := (List.mem_filter.mp hk).2
    rw [decide_eq_true_eq] at this
    rw [Nat.zero_add]
    exact this
  have htype : (f.declaration gap).type ≠ Field.optionKeyword := type_ne_optionKeyword f.type
  rw [statementStarts, fieldsFrom, if_neg (by simp), List.drop_zero, hfront]
  simp only
  rw [if_neg htype, fieldsFrom_eq_nil_of_lt hlater]

theorem trailing_text (f : FieldLine) (gap : Gap) : Utf8.trailing (gap.bytes ++ f.text) = 0 := by
  refine trailing_gap gap ?_
  have hascii : ∃ b r, f.text = b :: r ∧ b < 0x80 := by
    rcases hf : f.label with _ | ⟨label, space⟩
    · rw [text, lead, show f.labelBytes = [] by simp [labelBytes, hf]]
      cases hft : f.type with
      | word w h =>
        obtain ⟨b, r, hbr, hb⟩ := w.exists_cons
        rw [FieldType.bytes, hbr]
        exact ⟨b, _, rfl, (isDotted_class hb).1⟩
      | map => exact ⟨0x6D, _, rfl, by decide⟩
    · rw [text, lead, show f.labelBytes = label.bytes ++ space.bytes by simp [labelBytes, hf]]
      cases label
      · exact ⟨0x6F, _, rfl, by decide⟩
      · exact ⟨0x72, _, rfl, by decide⟩
      · exact ⟨0x72, _, rfl, by decide⟩
  obtain ⟨b, r, hbr, hb⟩ := hascii
  rw [hbr]
  exact Utf8.trailing_cons_of_ascii hb r

theorem part (f : FieldLine) (gap : Gap) (k : Nat) :
    Part k k (gap.bytes ++ f.text) 1 0 0 fun n => gap.bytes ++ (f.number n).text := by
  have hflat := f.flat_atoms gap
  have htext := f.gap_text gap
  have hheadless : Headless (gap.bytes ++ f.text) := by
    rw [htext]
    exact Atoms.headless hflat.plain hflat.unopened
  have hparted : Parted (gap.bytes ++ f.text) := by
    rw [htext]
    exact Atoms.parted_byte hflat.plain (Or.inl rfl)
  have hevent := Atoms.exists_events hflat.plain rfl
  have hdepth := hflat.depth k
  rw [← htext] at hevent hdepth
  have hfields : fields (gap.bytes ++ f.text) = [⟨0, f.declaration gap⟩] := by
    have := f.fieldsFrom_text gap []
    rwa [List.append_nil, ← hheadless.messageBlocks] at this
  have hsteady : ∀ u, fieldsFrom (gap.bytes ++ f.text ++ u) (messageBlocks (gap.bytes ++ f.text)) 0
      (statementStarts (gap.bytes ++ f.text)) = fields (gap.bytes ++ f.text) := by
    intro u
    rw [hheadless.messageBlocks, f.fieldsFrom_text gap u, hfields]
  have hr := hheadless.rewrites (f.trailing_text gap)
  refine ⟨⟨hparted, hheadless.matched, hevent, hsteady⟩, hdepth, f.trailing_text gap, ?_,
    hr.messages_eq, hr.total_eq, fun n => ?_, hr.started⟩
  · rw [hfields]
    rfl
  · have hedits : edits n (gap.bytes ++ f.text) =
        [⟨(gap.bytes ++ f.lead).length, (gap.bytes ++ f.lead).length + f.tag.digits.length,
          Ascii.decimal n⟩] := by
      rw [edits, hfields, List.eq_nil_of_length_eq_zero hr.total_eq]
      simp [retagFrom, Field.tagStart, Field.tagStop, declaration]
    have hsplit : gap.bytes ++ f.text = gap.bytes ++ f.lead ++ f.tag.digits ++ f.trail := by
      simp [text]
    rw [hedits, hsplit, Edit.substitute_one _ _ _ _ f.tag.nonempty]
    simp [text, number, lead, trail, labelBytes, optionsBytes]

end FieldLine

end Schema
end FieldTags
