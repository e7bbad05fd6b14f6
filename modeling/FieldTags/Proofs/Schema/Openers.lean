import FieldTags.Proofs.Schema.Statements

/-! The openers of blocks: that of a message has one head, that of another block has none. -/
namespace FieldTags
namespace Schema
open Bytes

theorem blank_class {b : UInt8} (h : b < 0x80 → holdsOf isBlank b = true) :
    Ascii.isNameByte b = false ∧ isMute b = true := by
  have hd : ∀ n < 256, (UInt8.ofNat n < 0x80 → holdsOf isBlank (UInt8.ofNat n) = true) →
      Ascii.isNameByte (UInt8.ofNat n) = false ∧ isMute (UInt8.ofNat n) = true := by
    decide +kernel
  exact @forall_byte (fun b => (b < 0x80 → holdsOf isBlank b = true) →
    Ascii.isNameByte b = false ∧ isMute b = true) hd b h

theorem mute_chars (r : CharRun isBlank) : Mute r.bytes :=
  fun _ hb => (blank_class (r.holdsOf_of_mem hb)).2

theorem isNameByte_of_mem_keyword : ∀ b ∈ Head.keyword, Ascii.isNameByte b = true := by
  decide +kernel

namespace Opener

def middle (o : Opener) : Bytes := o.beforeName.bytes ++ o.name.bytes ++ o.afterName.bytes

theorem text_eq (o : Opener) (keyword : Bytes) :
    o.text keyword = keyword ++ o.middle ++ [Ascii.leftBrace] := by
  simp [text, middle]

theorem isStop_of_mem_middle (o : Opener) : ∀ b ∈ o.middle, Head.isStop b = false := by
  have hblank : ∀ b, (b < 0x80 → holdsOf isBlank b = true) → Head.isStop b = false := by
    intro b h
    by_cases ha : b < 0x80
    · simp [Head.isStop, h ha]
    · simp [Head.isStop, ha]
  have hname : ∀ b, Ascii.isNameByte b = true → Head.isStop b = false := by
    intro b h
    simp [Head.isStop, h]
  intro b hb
  simp only [middle, List.mem_append] at hb
  rcases hb with (hb | hb) | hb
  · exact hblank b (o.beforeName.holdsOf_of_mem hb)
  · rcases List.mem_cons.mp hb with rfl | hb
    · exact hname _ (Declaration.isNameByte_of_isNameStart o.name.isNameStart)
    · exact hname b (o.name.rest.all b hb)
  · exact hblank b (o.afterName.holdsOf_of_mem hb)

theorem length?_text (o : Opener) (u : Bytes) :
    Head.length? (o.text Head.keyword ++ u) = some (o.text Head.keyword).length := by
  have hfirst := Declaration.isNameByte_of_isNameStart o.name.isNameStart
  have hdrop : (o.middle ++ Ascii.leftBrace :: u).drop 0 = o.beforeName.bytes ++
      (o.name.bytes ++ (o.afterName.bytes ++ Ascii.leftBrace :: u)) := by
    simp [middle]
  have hafterGap := drop_add_of_drop hdrop
  have hafterName := drop_add_of_drop hafterGap
  have hend := drop_add_of_drop hafterName
  rw [Nat.zero_add] at hafterGap hafterName hend
  have hgap : Bytes.run isBlank (o.middle ++ Ascii.leftBrace :: u) = o.beforeName.bytes.length := by
    rw [← List.drop_zero (l := o.middle ++ Ascii.leftBrace :: u), hdrop, Name.bytes,
      List.cons_append]
    exact o.beforeName.run_append
      ⟨Ascii.ascii_of_isNameByte hfirst, (Ascii.isNameByte_class hfirst).1⟩ _
  have hname : Head.nameLength ((o.middle ++ Ascii.leftBrace :: u).drop
      o.beforeName.bytes.length) = o.name.bytes.length := by
    obtain ⟨c, y, hcy⟩ := List.exists_cons_of_ne_nil
      (l := o.afterName.bytes ++ Ascii.leftBrace :: u) (by simp)
    have hstop : Ascii.isNameByte c = false := by
      rcases hb : o.afterName.bytes with _ | ⟨b, x⟩
      · rw [hb, List.nil_append] at hcy
        rw [← (List.cons.inj hcy).1]
        decide
      · rw [hb, List.cons_append] at hcy
        rw [← (List.cons.inj hcy).1]
        exact (blank_class (o.afterName.holdsOf_of_mem (by simp [hb]))).1
    rw [hafterGap, hcy, Name.bytes, List.cons_append, Head.nameLength, if_pos o.name.isNameStart,
      List.takeWhile_append_of_pos o.name.rest.all, List.takeWhile_cons, hstop,
      if_neg Bool.false_ne_true, List.append_nil, List.length_cons, Nat.add_comm]
  have hblank : Bytes.run isBlank ((o.middle ++ Ascii.leftBrace :: u).drop
      (o.beforeName.bytes.length + o.name.bytes.length)) = o.afterName.bytes.length := by
    rw [hafterName]
    exact o.afterName.run_append (by decide) _
  have hbegin : Head.keyword.isPrefixOf (o.text Head.keyword ++ u) = true := by
    rw [text_eq, List.append_assoc, List.append_assoc]
    exact List.isPrefixOf_iff_prefix.mpr (List.prefix_append _ _)
  have hrest : (o.text Head.keyword ++ u).drop Head.keyword.length =
      o.middle ++ Ascii.leftBrace :: u := by
    rw [text_eq, List.append_assoc, List.append_assoc, List.drop_left, List.singleton_append]
  have hbrace : (o.middle ++ Ascii.leftBrace :: u)[o.beforeName.bytes.length +
      o.name.bytes.length + o.afterName.bytes.length]? = some Ascii.leftBrace := by
    rw [← Nat.add_zero (_ + _), ← List.getElem?_drop, hend]
    rfl
  rw [Head.length?, if_pos hbegin, hrest, Head.restLength?]
  simp only [hgap, hname, hblank]
  rw [if_pos ⟨List.length_pos_of_ne_nil o.beforeName.nonempty, by simp [Name.bytes], hbrace⟩]
  simp [text]
  omega

theorem isNameByte_of_length?_middle (o : Opener) {d n : Nat} (hpos : 0 < d)
    (hlt : d < o.middle.length)
    (hn : Head.length? ((o.middle ++ [Ascii.leftBrace]).drop d) = some n) :
    ∃ b, o.middle[d - 1]? = some b ∧ Ascii.isNameByte b = true := by
  have hstop : ∀ b ∈ Head.keyword ++ o.middle, Head.isStop b = false := by
    intro b hb
    exact (List.mem_append.mp hb).elim (Head.isStop_of_mem_keyword b) (o.isStop_of_mem_middle b)
  have hmessage := o.length?_text []
  rw [List.append_nil, text_eq] at hmessage
  have hdrop : (Head.keyword ++ o.middle).drop (Head.keyword.length + d) = o.middle.drop d := by
    rw [← List.drop_drop, List.drop_left]
  rw [List.drop_append_of_le_length (Nat.le_of_lt hlt), ← hdrop] at hn
  obtain ⟨b, hb, hbyte⟩ := Head.not_mayStart_of_lt hstop hmessage (by omega)
    (by rw [List.length_append]; omega) hn
  refine ⟨b, ?_, hbyte⟩
  rw [List.getElem?_append_right (by omega)] at hb
  rw [← hb]
  congr 1
  omega

/-- Neither the first byte behind the keyword nor the brace is the first byte of a head. -/
theorem lt_of_getElem?_middle (o : Opener) {d : Nat}
    (h : (o.middle ++ [Ascii.leftBrace])[d]? = some 0x6D) : 0 < d ∧ d < o.middle.length := by
  constructor
  · by_contra hzero
    obtain rfl : d = 0 := by omega
    obtain ⟨c, r, hcr⟩ := List.exists_cons_of_ne_nil o.beforeName.nonempty
    have hc := (blank_class (o.beforeName.holdsOf_of_mem (b := c) (by simp [hcr]))).1
    rw [middle, hcr] at h
    obtain rfl : c = 0x6D := by simpa using h
    exact absurd hc (by decide)
  · by_contra hge
    rw [List.getElem?_append_right (by omega)] at h
    have hbrace := List.mem_singleton.mp (List.mem_of_getElem? h)
    exact absurd hbrace (by decide)

theorem start_le_of_mem_all (o : Opener) (gap : Gap) {keyword : Bytes}
    (hname : ∀ b ∈ keyword, Ascii.isNameByte b = true) {h : Head}
    (hh : h ∈ Head.all (gap.bytes ++ o.text keyword)) : h.start ≤ gap.bytes.length := by
  by_contra hgt
  obtain ⟨e, he⟩ : ∃ e, h.start = gap.bytes.length + e := ⟨h.start - gap.bytes.length, by omega⟩
  rcases Nat.lt_or_ge e keyword.length with hin | hout
  · have hb : (gap.bytes ++ o.text keyword)[gap.bytes.length + (e - 1)]? =
        some keyword[e - 1] := by
      rw [List.getElem?_append_right (by omega), Nat.add_sub_cancel_left, text_eq,
        List.append_assoc, List.getElem?_append_left (by omega), List.getElem?_eq_getElem]
    have := Head.not_isNameByte_before hh (by omega) hb
    rw [hname _ (List.getElem_mem _)] at this
    simp at this
  · obtain ⟨d, rfl⟩ : ∃ d, e = keyword.length + d := ⟨e - keyword.length, by omega⟩
    have hbody : ∀ d, (gap.bytes ++ o.text keyword).drop
        (gap.bytes.length + (keyword.length + d)) = (o.middle ++ [Ascii.leftBrace]).drop d := by
      intro d
      rw [← List.drop_drop, ← List.drop_drop, List.drop_left, text_eq, List.append_assoc,
        List.drop_left]
    have hget : ∀ d, (gap.bytes ++ o.text keyword)[gap.bytes.length + (keyword.length + d)]? =
        (o.middle ++ [Ascii.leftBrace])[d]? := by
      intro d
      rw [← Nat.add_zero (_ + _), ← List.getElem?_drop, hbody, List.getElem?_drop, Nat.add_zero]
    obtain ⟨n, -, -, hlen⟩ := Head.mem_all.mp hh
    have hfirst := Head.getElem?_start hh
    rw [he, hget] at hfirst
    obtain ⟨hpos, hlt⟩ := o.lt_of_getElem?_middle hfirst
    rw [he, hbody] at hlen
    obtain ⟨b, hb, hbyte⟩ := o.isNameByte_of_length?_middle hpos hlt hlen
    have hprevious : (gap.bytes ++ o.text keyword)[gap.bytes.length +
        (keyword.length + (d - 1))]? = some b := by
      rw [hget, List.getElem?_append_left (by omega), hb]
    rw [Head.not_isNameByte_before hh (by omega) hprevious] at hbyte
    simp at hbyte

/-- A head in an opener can only be that of a message, and begins with the keyword. -/
theorem of_mem_all (o : Opener) (gap : Gap) {keyword : Bytes}
    (hname : ∀ b ∈ keyword, Ascii.isNameByte b = true)
    (hkeyword : keyword = Head.keyword ∨ Head.keyword.isPrefixOf keyword = false) {h : Head}
    (hh : h ∈ Head.all (gap.bytes ++ o.text keyword)) :
    keyword = Head.keyword ∧ h.start = gap.bytes.length := by
  have hstart : h.start = gap.bytes.length := by
    refine Nat.le_antisymm (o.start_le_of_mem_all gap hname hh) ?_
    by_contra hlt
    have hfirst := Head.getElem?_start hh
    rw [List.getElem?_append_left (by omega)] at hfirst
    exact absurd (gap.all _ (List.mem_of_getElem? hfirst)) (by decide)
  refine ⟨hkeyword.resolve_right fun hno => ?_, hstart⟩
  obtain ⟨n, -, -, hlen⟩ := Head.mem_all.mp hh
  obtain ⟨c, r, hcr⟩ := List.exists_cons_of_ne_nil o.beforeName.nonempty
  have hc := (blank_class (o.beforeName.holdsOf_of_mem (b := c) (by simp [hcr]))).1
  have hmiddle : o.middle = c :: (r ++ o.name.bytes ++ o.afterName.bytes) := by
    simp [middle, hcr]
  rw [hstart, List.drop_left, Head.length?, text_eq, hmiddle, List.append_assoc,
    List.cons_append, Declaration.isPrefixOf_append isNameByte_of_mem_keyword hc, hno] at hlen
  simp at hlen

def before (o : Opener) (gap : Gap) (keyword : Bytes) : Bytes := gap.bytes ++ keyword ++ o.middle

theorem gap_text (o : Opener) (gap : Gap) (keyword : Bytes) :
    gap.bytes ++ o.text keyword = o.before gap keyword ++ [Ascii.leftBrace] := by
  simp [text_eq, before]

theorem mute_before (o : Opener) (gap : Gap) {keyword : Bytes}
    (hname : ∀ b ∈ keyword, Ascii.isNameByte b = true) : Mute (o.before gap keyword) :=
  ((mute_gap gap).append fun b hb => isMute_of_isNameByte (hname b hb)).append
    (((mute_chars o.beforeName.toCharRun).append (mute_name o.name)).append
      (mute_chars o.afterName))

theorem trailing_before (o : Opener) (gap : Gap) {keyword : Bytes}
    (hname : ∀ b ∈ keyword, Ascii.isNameByte b = true) (hne : keyword ≠ []) (t : Bytes) :
    Utf8.trailing (o.before gap keyword ++ t) = 0 := by
  obtain ⟨b, r, rfl⟩ := List.exists_cons_of_ne_nil hne
  rw [before, List.append_assoc, List.append_assoc]
  exact trailing_gap gap (Utf8.trailing_cons_of_ascii (Ascii.ascii_of_isNameByte
    (hname b (by simp))) _)

theorem part (o : Opener) (gap : Gap) (keyword : Bytes)
    (hname : ∀ b ∈ keyword, Ascii.isNameByte b = true) (hne : keyword ≠ [])
    (hkeyword : Head.keyword.isPrefixOf keyword = false) (k : Nat) :
    Part k (k + 1) (gap.bytes ++ o.text keyword) 0 0 0 fun _ => gap.bytes ++ o.text keyword := by
  have hcalm := calm_ofBytes (o.mute_before gap hname)
  have htext := Atoms.text_ofBytes (o.before gap keyword)
  have hheadless : Headless (o.before gap keyword ++ [Ascii.leftBrace]) := by
    rintro h ⟨hh, -⟩
    rw [← gap_text] at hh
    obtain ⟨rfl, -⟩ := o.of_mem_all gap hname (Or.inr hkeyword) hh
    exact absurd hkeyword (by decide +kernel)
  have hdepth := (hcalm.depth k).append hcalm.code (depth_leftBrace k)
  rw [← htext] at hheadless
  have hquiet := hcalm.quiet_byte (Or.inr (Or.inl rfl)) hheadless
  rw [htext] at hquiet hdepth
  rw [gap_text]
  exact hquiet.part hdepth (o.trailing_before gap hname hne _)

theorem inCode_iff (o : Opener) (gap : Gap) {h : Head} :
    Head.InCode (o.before gap Head.keyword ++ [Ascii.leftBrace]) h ↔
      h = ⟨gap.bytes.length, (o.before gap Head.keyword).length⟩ := by
  have hlen : gap.bytes.length + (o.text Head.keyword).length =
      (o.before gap Head.keyword).length + 1 := by
    rw [← List.length_append, gap_text, List.length_append, List.length_singleton]
  have hlength := o.length?_text []
  rw [List.append_nil] at hlength
  have hdrop : (gap.bytes ++ o.text Head.keyword).drop gap.bytes.length = o.text Head.keyword :=
    List.drop_left
  rw [← gap_text]
  constructor
  · rintro ⟨hh, -⟩
    obtain ⟨-, hstart⟩ := o.of_mem_all gap isNameByte_of_mem_keyword (Or.inl rfl) hh
    obtain ⟨n, hl, -, hn⟩ := Head.mem_all.mp hh
    rw [hstart, hdrop, hlength, Option.some.injEq] at hn
    obtain ⟨start, lbrace⟩ := h
    simp only at hstart hl
    simp only [Head.mk.injEq]
    omega
  · rintro rfl
    refine ⟨Head.mem_all.mpr ⟨_, ?_, ?_, by rw [hdrop, hlength]⟩, ?_⟩
    · simp only
      omega
    · rcases Nat.eq_zero_or_pos gap.bytes.length with hzero | hpos
      · simp only [hzero]
        rfl
      · obtain ⟨g, hg⟩ : ∃ g, gap.bytes.length = g + 1 := ⟨gap.bytes.length - 1, by omega⟩
        have hlast : (gap.bytes ++ o.text Head.keyword)[g]? = some gap.bytes[g] := by
          rw [List.getElem?_append_left (by omega), List.getElem?_eq_getElem]
        have hgap := gap.all _ (List.getElem_mem (l := gap.bytes) (n := g) (by omega))
        simp only [hg]
        rw [Head.getElem?_wordMayStart_succ hlast (Declaration.isTypeChar_of_isGap hgap).1,
          (isGap_class hgap).2.2.1]
        rfl
    · have hcode := (calm_ofBytes (mute_gap gap)).code
      rw [Atoms.text_ofBytes] at hcode
      have hmask := codeMask_append_right hcode (o.text Head.keyword) 0
      rw [Nat.add_zero] at hmask
      rw [hmask, text_eq]
      rfl

theorem framed (o : Opener) (gap : Gap) {t : Bytes} {f m c : Nat} {q : Nat → Bytes}
    (ht : Tail 0 t f m c q) : Framed (o.before gap Head.keyword) t gap.bytes.length := by
  have hcode := (calm_ofBytes (o.mute_before gap isNameByte_of_mem_keyword)).code
  rw [Atoms.text_ofBytes] at hcode
  refine ⟨hcode, fun h => o.inCode_iff gap, ht.code, ht.depth, ht.matched, ?_⟩
  rw [Utf8.trailing_append (by decide), ht.front]

theorem rewrites_message (o : Opener) (gap : Gap) {t : Bytes} {f m c : Nat} {q : Nat → Bytes}
    (ht : Tail 0 t f m c q) :
    Rewrites (gap.bytes ++ o.text Head.keyword ++ t ++ [Ascii.rightBrace]) (1 + m) (f + c)
      (gap.bytes ++ o.text Head.keyword ++ q 1 ++ [Ascii.rightBrace]) := by
  rw [gap_text]
  exact (o.framed gap ht).rewrites
    (o.trailing_before gap isNameByte_of_mem_keyword (by decide +kernel) _) ht

theorem part_message (o : Opener) (gap : Gap) {t : Bytes} {f m c : Nat} {q : Nat → Bytes}
    (ht : Tail 0 t f m c q) (k : Nat) :
    Part k k (gap.bytes ++ o.text Head.keyword ++ t ++ [Ascii.rightBrace]) 0 (1 + m) (f + c)
      fun _ => gap.bytes ++ o.text Head.keyword ++ q 1 ++ [Ascii.rightBrace] := by
  have hmute := o.mute_before gap isNameByte_of_mem_keyword
  have hdepth : ∀ k, Depth (o.before gap Head.keyword) k k := by
    intro k
    have := (calm_ofBytes hmute).depth k
    rwa [Atoms.text_ofBytes] at this
  have hsign : ∀ b ∈ o.before gap Head.keyword, b ≠ Ascii.equals ∧ b ≠ Ascii.less := by
    intro b hb
    have := hmute b hb
    simp only [isMute, Bool.and_eq_true, bne_iff_ne] at this
    exact ⟨this.1.2, this.2⟩
  rw [gap_text]
  exact (o.framed gap ht).part
    (o.trailing_before gap isNameByte_of_mem_keyword (by decide +kernel) _) hdepth hsign ht k

end Opener

end Schema
end FieldTags
