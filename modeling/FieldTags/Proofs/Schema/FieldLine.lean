import FieldTags.Proofs.Schema.Reading

/-! The declaration at the front of a field line: its label, type and name are the ones written, its
tag is where the line has its digits, and it ends with the semicolon. -/
namespace FieldTags
namespace Schema
open Bytes Declaration

theorem Solid.of_cons {b : UInt8} (hb : Ascii.isGap b = false) (hless : b ≠ Ascii.less)
    (t : Bytes) : Solid (b :: t) := by
  intro c hc
  obtain rfl : b = c := by simpa using hc
  exact ⟨hb, hless⟩

theorem gapLength_gap (g : Gap) {t : Bytes} (ht : Solid t) :
    gapLength (g.bytes ++ t) = g.bytes.length :=
  gapLength_append g.all fun b hb => (ht b hb).1

theorem Label.mem_labels (l : Label) : l.bytes ∈ labels := by
  cases l <;> simp [labels, Label.bytes]

theorem Label.length_bytes {w : Bytes} (hw : w ∈ labels) (l : Label) :
    w.length = l.bytes.length := by
  have hlen : ∀ w ∈ labels, w.length = 8 := by decide +kernel
  rw [hlen w hw, hlen _ l.mem_labels]

theorem Label.eq_of_isPrefixOf {l : Label} {w t : Bytes} (hw : w ∈ labels)
    (h : w.isPrefixOf (l.bytes ++ t) = true) : w = l.bytes := by
  have htake := List.prefix_iff_eq_take.mp (List.isPrefixOf_iff_prefix.mp h)
  rwa [l.length_bytes hw, List.take_left] at htake

theorem labelChoices_label (l : Label) (g : Word Ascii.isGap) {t : Bytes} (ht : Solid t) :
    ∃ cs, labelChoices (l.bytes ++ (g.bytes ++ t)) =
      (some l.bytes, l.bytes.length + g.bytes.length) :: cs := by
  have hgap := gapLength_gap g.toRun ht
  have hpos := List.length_pos_of_ne_nil g.nonempty
  let choice : Bytes → Option (Option Bytes × Nat) := fun w =>
    let gap := gapLength ((l.bytes ++ (g.bytes ++ t)).drop w.length)
    if w.isPrefixOf (l.bytes ++ (g.bytes ++ t)) ∧ 0 < gap then some (some w, w.length + gap)
    else none
  have hself : choice l.bytes = some (some l.bytes, l.bytes.length + g.bytes.length) := by
    have hbegin : l.bytes.isPrefixOf (l.bytes ++ (g.bytes ++ t)) = true :=
      List.isPrefixOf_iff_prefix.mpr (List.prefix_append _ _)
    simp only [choice, List.drop_left, hgap, hbegin, hpos, and_self, if_true]
  have hother : ∀ w ∈ labels, w ≠ l.bytes → choice w = none := by
    intro w hw hne
    exact if_neg fun h => hne (Label.eq_of_isPrefixOf hw h.1)
  have hsplit : ∃ ws vs, labels = ws ++ l.bytes :: vs ∧ l.bytes ∉ ws := by
    cases l with
    | optional => exact ⟨[], _, rfl, by simp⟩
    | required => exact ⟨[Label.bytes .optional], _, rfl, by decide +kernel⟩
    | repeated => exact ⟨[Label.bytes .optional, Label.bytes .required], _, rfl, by decide +kernel⟩
  obtain ⟨ws, vs, hlabels, hnot⟩ := hsplit
  have hws : ws.filterMap choice = [] := by
    rw [List.filterMap_eq_nil_iff]
    intro w hw
    exact hother w (by simp [hlabels, hw]) fun h => hnot (h ▸ hw)
  change ∃ cs, labels.filterMap choice ++ [(none, 0)] = _
  rw [hlabels, List.filterMap_append, hws, List.nil_append, List.filterMap_cons_some hself]
  exact ⟨_, rfl⟩

/-- Without a label the type may be spelled like one; it is then read as a label first. -/
theorem labelChoices_type (type : FieldType) (g : Word Ascii.isGap) {t : Bytes} (ht : Solid t) :
    ∃ cs, labelChoices (type.bytes ++ (g.bytes ++ t)) = cs ++ [(none, 0)] ∧
      ∀ c ∈ cs, c.2 = type.bytes.length + g.bytes.length := by
  refine ⟨_, rfl, fun c hc => ?_⟩
  obtain ⟨w, hw, hc⟩ := List.mem_filterMap.mp hc
  simp only at hc
  split at hc
  · rename_i hcond
    obtain ⟨hbegin, hpos⟩ := hcond
    obtain rfl := Option.some.inj hc
    cases type with
    | word v h =>
      obtain ⟨b, r, hbr, hb⟩ := g.exists_cons
      rw [FieldType.bytes, hbr, List.cons_append, isPrefixOf_append (isNameByte_of_mem_labels w hw)
        (isTypeChar_of_isGap hb).2.2] at hbegin
      obtain ⟨s, hs⟩ := List.isPrefixOf_iff_prefix.mp hbegin
      rw [FieldType.bytes, ← hs, List.append_assoc, List.drop_left] at hpos ⊢
      cases s with
      | nil => rw [List.nil_append, gapLength_gap g.toRun ht, List.append_nil]
      | cons x s =>
        have hx := (isDotted_class (v.all x (by simp [← hs]))).2.2.1
        rw [gapLength, List.cons_append, List.takeWhile_cons, hx] at hpos
        simp at hpos
    | map beforeLess beforeKey key afterKey beforeValue value afterValue =>
      have hno : ∀ w ∈ labels, w.head? ≠ some 0x6D := by decide +kernel
      obtain ⟨s, hs⟩ := List.isPrefixOf_iff_prefix.mp hbegin
      refine absurd ?_ (hno w hw)
      have hne : w ≠ [] := by
        have : ∀ w ∈ labels, w ≠ [] := by decide +kernel
        exact this w hw
      obtain ⟨b, v, rfl⟩ := List.exists_cons_of_ne_nil hne
      exact congrArg List.head? hs
  · simp at hc

theorem between_of_drop {t s r : Bytes} {i : Nat} (ht : t.drop i = s ++ r) :
    t.between i (i + s.length) = s := by
  rw [Bytes.between, List.drop_take, ht, Nat.add_sub_cancel_left, List.take_left]

namespace FieldLine

theorem nameLength_name (n : FieldName) {c : UInt8} (hc : c < 0x80 ∧ holdsOf isWord c = false)
    (t : Bytes) : nameLength (n.bytes ++ c :: t) = n.bytes.length := by
  rw [FieldName.bytes, List.cons_append, nameLength_cons n.isNameStart, n.rest.run_append hc,
    List.length_cons, Nat.add_comm]

theorem optionsLength?_trail (f : FieldLine) (u : Bytes) :
    ∃ n, optionsLength? (f.optionsBytes ++ Ascii.semicolon :: u) = some n ∧
      n + gapLength ((f.optionsBytes ++ Ascii.semicolon :: u).drop n) =
        f.optionsBytes.length := by
  rcases hf : f.options with _ | ⟨group, gap⟩
  · have hempty : f.optionsBytes = [] := by simp [optionsBytes, hf]
    rw [hempty]
    exact ⟨0, rfl, rfl⟩
  · have hbytes : f.optionsBytes ++ Ascii.semicolon :: u = Ascii.leftBracket ::
        (group.bytes ++ Ascii.rightBracket :: (gap.bytes ++ Ascii.semicolon :: u)) := by
      simp [optionsBytes, hf]
    have hlen : f.optionsBytes.length = 1 + (group.bytes.length + 1) + gap.bytes.length := by
      simp [optionsBytes, hf]
      omega
    have hclose : GroupMode.restLength? .plain
        (Ascii.rightBracket :: (gap.bytes ++ Ascii.semicolon :: u)) = some 1 := by
      rw [GroupMode.restLength?, if_neg (by decide), if_pos (by decide)]
    refine ⟨1 + (group.bytes.length + 1), ?_, ?_⟩
    · rw [hbytes, optionsLength?, if_pos rfl, restLength?_group, hclose]
      rfl
    · rw [hbytes, ← List.drop_drop, ← List.drop_drop, List.drop_succ_cons, List.drop_zero,
        List.drop_left, List.drop_succ_cons, List.drop_zero,
        gapLength_gap gap (Solid.of_cons (by decide) (by decide) u), hlen]

theorem solid_name (n : FieldName) (t : Bytes) : Solid (n.bytes ++ t) := by
  have hbyte := isNameByte_of_isNameStart n.isNameStart
  refine Solid.of_cons (not_isGap_of_isNameByte hbyte) ?_ _
  intro hless
  rw [hless] at hbyte
  exact absurd hbyte (by decide)

theorem solid_type (type : FieldType) (t : Bytes) : Solid (type.bytes ++ t) := by
  cases type with
  | word w h =>
    obtain ⟨b, r, hbr, hb⟩ := w.exists_cons
    obtain ⟨-, -, hgap, -, hless⟩ := isDotted_class hb
    rw [FieldType.bytes, hbr]
    exact Solid.of_cons hgap hless _
  | map => exact Solid.of_cons (by decide) (by decide) _

def typed (f : FieldLine) (u : Bytes) : Bytes :=
  f.type.bytes ++ (f.beforeName.bytes ++ (f.name.bytes ++ (f.beforeEquals.bytes ++
    ([Ascii.equals] ++ (f.afterEquals.bytes ++ (f.tag.digits ++ (f.afterTag.bytes ++
      (f.optionsBytes ++ Ascii.semicolon :: u))))))))

theorem text_eq_typed (f : FieldLine) (u : Bytes) : f.text ++ u = f.labelBytes ++ f.typed u := by
  simp [text, lead, trail, typed]

theorem solid_label (f : FieldLine) (u : Bytes) : Solid (f.labelBytes ++ f.typed u) := by
  rcases hf : f.label with _ | ⟨label, gap⟩
  · rw [show f.labelBytes = [] by simp [labelBytes, hf]]
    exact solid_type f.type _
  · rw [show f.labelBytes = label.bytes ++ gap.bytes by simp [labelBytes, hf]]
    cases label <;> exact Solid.of_cons (by decide) (by decide) _

theorem solid_afterTag (f : FieldLine) (u : Bytes) :
    Solid (f.optionsBytes ++ Ascii.semicolon :: u) := by
  rcases hf : f.options with _ | ⟨group, gap⟩
  · rw [show f.optionsBytes = [] by simp [optionsBytes, hf]]
    exact Solid.of_cons (by decide) (by decide) u
  · rw [show f.optionsBytes = Ascii.leftBracket ::
      (group.bytes ++ Ascii.rightBracket :: gap.bytes) by simp [optionsBytes, hf]]
    exact Solid.of_cons (by decide) (by decide) _

theorem takeWhile_digits (f : FieldLine) (u : Bytes) :
    (f.tag.digits ++ (f.afterTag.bytes ++ (f.optionsBytes ++ Ascii.semicolon :: u))).takeWhile
      Ascii.isDigit = f.tag.digits := by
  have hnext : ∃ b y, f.optionsBytes ++ Ascii.semicolon :: u = b :: y ∧
      Ascii.isDigit b = false := by
    rcases hf : f.options with _ | ⟨group, gap⟩
    · exact ⟨Ascii.semicolon, u, by simp [optionsBytes, hf], by decide⟩
    · exact ⟨Ascii.leftBracket, _, by simp [optionsBytes, hf]; rfl, by decide⟩
  obtain ⟨b, y, hby, hb⟩ := hnext
  obtain ⟨c, z, hcz, hc⟩ := f.afterTag.exists_cons_append b y
  have hdigit : Ascii.isDigit c = false := by
    rcases hc with hc | rfl
    · exact (isGap_class hc).2.2.2
    · exact hb
  rw [hby, hcz, List.takeWhile_append_of_pos f.tag.isDigit, List.takeWhile_cons, hdigit]
  simp

theorem solid_digits (n : Numeral) (t : Bytes) : Solid (n.digits ++ t) := by
  obtain ⟨b, r, hbr⟩ := List.exists_cons_of_ne_nil n.nonempty
  have hdigit := n.isDigit b (by simp [hbr])
  rw [hbr]
  exact Solid.of_cons (not_isGap_of_isNameByte (by simp [Ascii.isNameByte, hdigit]))
    (Ascii.ne_of_isDigit hdigit (by decide)) _

theorem nameLength_beforeEquals (f : FieldLine) (t : Bytes) :
    nameLength (f.name.bytes ++ (f.beforeEquals.bytes ++ Ascii.equals :: t)) =
      f.name.bytes.length := by
  obtain ⟨c, z, hcz, hc⟩ := f.beforeEquals.exists_cons_append Ascii.equals t
  rw [hcz]
  refine nameLength_name f.name ?_ z
  rcases hc with hc | rfl
  · exact ⟨(isTypeChar_of_isGap hc).1, (isGap_class hc).2.2.1⟩
  · decide

theorem complete?_typed (f : FieldLine) (p u : Bytes) (label : Option Bytes) :
    complete? (p ++ f.typed u) ⟨label, p.length, p.length + f.type.bytes.length⟩ =
      some ⟨label, f.type.bytes, f.name.bytes, f.tag.digits,
        p.length + f.type.bytes.length + f.beforeName.bytes.length + f.name.bytes.length +
          f.beforeEquals.bytes.length + 1 + f.afterEquals.bytes.length,
        p.length + f.type.bytes.length + f.beforeName.bytes.length + f.name.bytes.length +
          f.beforeEquals.bytes.length + 1 + f.afterEquals.bytes.length + f.tag.digits.length +
          f.afterTag.bytes.length + f.optionsBytes.length + 1⟩ := by
  obtain ⟨n, hoptions, hafterOptions⟩ := f.optionsLength?_trail u
  have htype : (p ++ f.typed u).drop p.length = f.typed u := List.drop_left
  generalize p ++ f.typed u = t at htype ⊢
  rw [typed] at htype
  -- what stands behind each part
  have hbeforeName := drop_add_of_drop htype
  have hname := drop_add_of_drop hbeforeName
  have hbeforeEquals := drop_add_of_drop hname
  have hequals := drop_add_of_drop hbeforeEquals
  have hafterEquals := drop_add_of_drop hequals
  have htag := drop_add_of_drop hafterEquals
  have hafterTag := drop_add_of_drop htag
  have htrail := drop_add_of_drop hafterTag
  have hend := drop_add_of_drop htrail
  rw [List.length_singleton] at hafterEquals htag hafterTag htrail hend
  have hgap₁ : gapLength (t.drop (p.length + f.type.bytes.length)) = f.beforeName.bytes.length := by
    rw [hbeforeName, gapLength_gap f.beforeName.toRun (solid_name f.name _)]
  have hlength : nameLength (t.drop (p.length + f.type.bytes.length +
      f.beforeName.bytes.length)) = f.name.bytes.length := by
    rw [hname]
    exact f.nameLength_beforeEquals _
  have hgap₂ : gapLength (t.drop (p.length + f.type.bytes.length + f.beforeName.bytes.length +
      f.name.bytes.length)) = f.beforeEquals.bytes.length := by
    rw [hbeforeEquals]
    exact gapLength_gap f.beforeEquals (Solid.of_cons (by decide) (by decide) _)
  have hgap₃ : gapLength (t.drop (p.length + f.type.bytes.length + f.beforeName.bytes.length +
      f.name.bytes.length + f.beforeEquals.bytes.length + 1)) = f.afterEquals.bytes.length := by
    rw [hafterEquals, gapLength_gap f.afterEquals (solid_digits f.tag _)]
  have hdigits := f.takeWhile_digits u
  rw [← htag] at hdigits
  have hgap₄ := gapLength_gap f.afterTag (f.solid_afterTag u)
  rw [← hafterTag] at hgap₄
  rw [← htrail] at hoptions hafterOptions
  rw [List.drop_drop] at hafterOptions
  have hsign := getElem?_of_drop hequals
  have hsemi := getElem?_of_drop hend
  have hpos := List.length_pos_of_ne_nil f.beforeName.nonempty
  have hnamePos : 0 < f.name.bytes.length := by simp [FieldName.bytes]
  unfold complete?
  simp only [hgap₁, hlength, hgap₂, hgap₃, hdigits, hgap₄, hoptions, Option.bind_some,
    between_of_drop htype, between_of_drop hname]
  rw [if_pos ⟨by omega, by omega, hsign, f.tag.nonempty⟩]
  simp only [Nat.add_assoc _ n, hafterOptions]
  rw [if_pos hsemi]

theorem isWord_of_mem_name (n : FieldName) {b : UInt8} (hb : b ∈ n.bytes) (ha : b < 0x80) :
    holdsOf isWord b = true := by
  rcases List.mem_cons.mp hb with rfl | hb
  · exact (Ascii.isNameByte_class (isNameByte_of_isNameStart n.isNameStart)).2
  · exact n.rest.holdsOf_of_mem hb ha

theorem oneWord_name (f : FieldLine) :
    OneWord (f.name.bytes ++ f.beforeEquals.bytes) ∧
      ∀ b ∈ f.name.bytes ++ f.beforeEquals.bytes, b ≠ Ascii.equals ∧ b ≠ Ascii.less := by
  have hname : ∀ b ∈ f.name.bytes,
      Ascii.isGap b = false ∧ b ≠ Ascii.equals ∧ b ≠ Ascii.less := by
    intro b hb
    have hword := isWord_of_mem_name f.name hb
    refine ⟨?_, ?_, ?_⟩
    · by_contra hgap
      rw [Bool.not_eq_false] at hgap
      have := (isGap_class hgap).2.2.1
      rw [hword (isTypeChar_of_isGap hgap).1] at this
      simp at this
    · rintro rfl
      exact absurd (hword (by decide)) (by decide)
    · rintro rfl
      exact absurd (hword (by decide)) (by decide)
  refine ⟨⟨[], f.name.bytes, f.beforeEquals.bytes, by simp, fun b hb => ?_,
    fun b hb => (hname b hb).1⟩, fun b hb => ?_⟩
  · exact Or.inl (f.beforeEquals.all b (by simpa using hb))
  · rcases List.mem_append.mp hb with hb | hb
    · exact (hname b hb).2
    · have := isGap_class (f.beforeEquals.all b hb)
      exact ⟨this.1, this.2.1⟩

/-- The label choices of a line: the one that is written, and before it at most one that takes the
type for a label. -/
theorem exists_labelChoices (f : FieldLine) (u : Bytes) :
    ∃ cs ds, labelChoices (f.labelBytes ++ f.typed u) =
        cs ++ (f.label.map (·.1.bytes), f.labelBytes.length) :: ds ∧
      ∀ c ∈ cs, f.labelBytes = [] ∧ c.2 = f.type.bytes.length + f.beforeName.bytes.length := by
  rcases hf : f.label with _ | ⟨label, gap⟩
  · have hempty : f.labelBytes = [] := by simp [labelBytes, hf]
    obtain ⟨cs, hcs, hskip⟩ := labelChoices_type f.type f.beforeName (solid_name f.name _)
    refine ⟨cs, [], ?_, fun c hc => ⟨hempty, hskip c hc⟩⟩
    rw [hempty]
    exact hcs
  · have hbytes : f.labelBytes = label.bytes ++ gap.bytes := by simp [labelBytes, hf]
    obtain ⟨ds, hds⟩ := labelChoices_label label gap (solid_type f.type _)
    refine ⟨[], ds, ?_, by simp⟩
    rw [hbytes, List.append_assoc, List.length_append]
    exact hds

theorem complete?_name (f : FieldLine) (p u : Bytes) {label : Option Bytes} {n : Nat}
    (hp : p = f.type.bytes ++ f.beforeName.bytes) {gap : Bytes}
    (hn : n ∈ typeLengths ((gap ++ f.typed u).drop (gap.length + p.length))) :
    complete? (gap ++ f.typed u) ⟨label, gap.length + p.length, gap.length + p.length + n⟩ =
      none := by
  rw [Option.eq_none_iff_forall_ne_some]
  intro d hd
  obtain ⟨j, e, hlead⟩ := lead_of_complete? hn rfl hd
  have hdrop : (gap ++ f.typed u).drop (gap.length + p.length) =
      f.name.bytes ++ f.beforeEquals.bytes ++ Ascii.equals ::
        (f.afterEquals.bytes ++ (f.tag.digits ++ (f.afterTag.bytes ++
          (f.optionsBytes ++ Ascii.semicolon :: u)))) := by
    rw [← List.drop_drop, List.drop_left, hp, typed, ← List.append_assoc, List.drop_left]
    simp
  rw [hdrop] at hlead
  obtain ⟨hword, hplain⟩ := f.oneWord_name
  exact not_lead_of_oneWord hplain hword hlead

/-- The declaration that a line behind a gap is written as. -/
def declaration (f : FieldLine) (gap : Gap) : Declaration :=
  ⟨f.label.map (·.1.bytes), f.type.bytes, f.name.bytes, f.tag.digits,
    (gap.bytes ++ f.lead).length, (gap.bytes ++ f.text).length⟩

/-- A field line is read as the declaration it is written as. -/
theorem front?_text (f : FieldLine) (gap : Gap) (u : Bytes) :
    front? (gap.bytes ++ (f.text ++ u)) = some (f.declaration gap) := by
  rw [text_eq_typed]
  have hindent : gapLength (gap.bytes ++ (f.labelBytes ++ f.typed u)) = gap.bytes.length :=
    gapLength_gap gap (f.solid_label u)
  obtain ⟨cs, ds, hchoices, hcs⟩ := f.exists_labelChoices u
  obtain ⟨ns, htypes⟩ : ∃ ns, typeLengths (f.typed u) = f.type.bytes.length :: ns :=
    typeLengths_type f.type f.beforeName (solid_name f.name _)
  have hcomplete := f.complete?_typed (gap.bytes ++ f.labelBytes) u (f.label.map (·.1.bytes))
  rw [List.append_assoc, List.length_append] at hcomplete
  rw [front?, openings, hindent]
  simp only [List.drop_left, hchoices, List.flatMap_append, List.flatMap_cons]
  rw [← List.drop_drop, List.drop_left, List.drop_left, htypes, List.findSome?_append,
    List.findSome?_eq_none_iff.mpr, Option.none_or, List.map_cons, List.cons_append,
    List.findSome?_cons, hcomplete]
  · simp [declaration, lead, text, trail]
    omega
  · intro o ho
    obtain ⟨c, hc, ho⟩ := List.mem_flatMap.mp ho
    obtain ⟨n, hn, rfl⟩ := List.mem_map.mp ho
    obtain ⟨hempty, hskip⟩ := hcs c hc
    rw [hskip, ← List.length_append, hempty, List.nil_append] at hn ⊢
    exact f.complete?_name _ u rfl hn

end FieldLine

end Schema
end FieldTags
