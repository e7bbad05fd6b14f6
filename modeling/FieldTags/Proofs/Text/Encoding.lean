import FieldTags.Proofs.Text.Characters

/-! The bytes of characters. What `front?` reads is the encoding of one character, so the runs and the
marks of a text can be told from its characters, whether the whole text is valid or not. -/
namespace FieldTags
namespace Utf8
open String (utf8EncodeChar)

theorem toNat_ofNat {n : Nat} (h : n < 256) : (UInt8.ofNat n).toNat = n :=
  UInt8.toNat_ofNat_of_lt' h

theorem payload?_eq_some_iff {b : UInt8} {n : Nat} :
    payload? b = some n ↔ n < 64 ∧ b = UInt8.ofNat (n + 128) := by
  have hclass : isContinuation b = true ↔ 128 ≤ b.toNat ∧ b.toNat < 192 := by
    simp [isContinuation, UInt8.le_iff_toNat_le, UInt8.lt_iff_toNat_lt]
  rw [payload?]
  constructor
  · intro h
    split at h
    · rename_i hb
      rw [hclass] at hb
      have hn : b.toNat - 128 = n := by simpa using h
      refine ⟨by omega, UInt8.toNat_inj.mp ?_⟩
      rw [toNat_ofNat (by omega)]
      omega
    · simp at h
  · rintro ⟨hn, rfl⟩
    have hb := toNat_ofNat (n := n + 128) (by omega)
    rw [if_pos (hclass.mpr (by omega)), hb]
    simp

theorem payload?_ofNat {n : Nat} (h : n < 64) : payload? (UInt8.ofNat (n + 128)) = some n :=
  payload?_eq_some_iff.mpr ⟨h, rfl⟩

theorem ofNat_lt_iff {n : Nat} (h : n < 256) (b : UInt8) : UInt8.ofNat n < b ↔ n < b.toNat := by
  rw [UInt8.lt_iff_toNat_lt, toNat_ofNat h]

/-! Characters by the number of their bytes -/

theorem front?_one {a : Nat} (ha : a < 128) (s : Bytes) :
    front? (UInt8.ofNat a :: s) = some (Char.ofNat a, 1) := by
  have hlead := ofNat_lt_iff (show a < 256 by omega)
  simp only [front?, hlead, UInt8.reduceToNat, if_pos ha, toNat_ofNat (show a < 256 by omega)]

theorem front?_two {a x : Nat} (ha : 2 ≤ a ∧ a < 32) (hx : x < 64) (s : Bytes) :
    front? (UInt8.ofNat (a + 192) :: UInt8.ofNat (x + 128) :: s) =
      some (Char.ofNat (a * 64 + x), 2) := by
  have hlead := ofNat_lt_iff (show a + 192 < 256 by omega)
  simp only [front?, hlead, UInt8.reduceToNat]
  rw [if_neg (by omega), if_neg (by omega), if_pos (by omega), toNat_ofNat (by omega)]
  simp only [List.getElem?_cons_zero, Option.bind_eq_bind, Option.bind_some, payload?_ofNat hx,
    Nat.add_sub_cancel]

theorem front?_three {a x y : Nat} (ha : a < 16) (hx : x < 64) (hy : y < 64)
    (hcode : 0x800 ≤ (a * 64 + x) * 64 + y)
    (hvalid : (a * 64 + x) * 64 + y < 0xD800 ∨ 0xDFFF < (a * 64 + x) * 64 + y) (s : Bytes) :
    front? (UInt8.ofNat (a + 224) :: UInt8.ofNat (x + 128) :: UInt8.ofNat (y + 128) :: s) =
      some (Char.ofNat ((a * 64 + x) * 64 + y), 3) := by
  have hlead := ofNat_lt_iff (show a + 224 < 256 by omega)
  simp only [front?, hlead, UInt8.reduceToNat]
  rw [if_neg (by omega), if_neg (by omega), if_neg (by omega), if_pos (by omega),
    toNat_ofNat (by omega)]
  simp only [List.getElem?_cons_zero, List.getElem?_cons_succ, Option.bind_eq_bind,
    Option.bind_some, payload?_ofNat hx, payload?_ofNat hy, Nat.add_sub_cancel]
  rw [if_neg (by omega)]

theorem front?_four {a x y z : Nat} (ha : a < 5) (hx : x < 64) (hy : y < 64) (hz : z < 64)
    (hcode : 0x10000 ≤ ((a * 64 + x) * 64 + y) * 64 + z)
    (hvalid : ((a * 64 + x) * 64 + y) * 64 + z < 0x110000) (s : Bytes) :
    front? (UInt8.ofNat (a + 240) :: UInt8.ofNat (x + 128) :: UInt8.ofNat (y + 128) ::
      UInt8.ofNat (z + 128) :: s) = some (Char.ofNat (((a * 64 + x) * 64 + y) * 64 + z), 4) := by
  have hlead := ofNat_lt_iff (show a + 240 < 256 by omega)
  simp only [front?, hlead, UInt8.reduceToNat]
  rw [if_neg (by omega), if_neg (by omega), if_neg (by omega), if_neg (by omega),
    if_pos (by omega), toNat_ofNat (by omega)]
  simp only [List.getElem?_cons_zero, List.getElem?_cons_succ, Option.bind_eq_bind,
    Option.bind_some, payload?_ofNat hx, payload?_ofNat hy, payload?_ofNat hz,
    Nat.add_sub_cancel]
  rw [if_neg (by omega)]

/-- The encoding of a character is read as that character, whatever follows. -/
theorem front?_encode (c : Char) (s : Bytes) :
    front? (utf8EncodeChar c ++ s) = some (c, (utf8EncodeChar c).length) := by
  have hvalid : c.toNat < 0xD800 ∨ (0xDFFF < c.toNat ∧ c.toNat < 0x110000) := c.valid
  have hchar : Char.ofNat c.toNat = c := Char.ofNat_toNat c
  have hval : c.val.toNat = c.toNat := rfl
  generalize c.toNat = n at hvalid hchar hval
  unfold utf8EncodeChar
  simp only [hval]
  split
  · rw [List.singleton_append, front?_one (by omega), hchar]
    rfl
  split
  · have hcode : n / 64 % 32 * 64 + n % 64 = n := by omega
    rw [List.cons_append, List.singleton_append, front?_two (by omega) (by omega), hcode, hchar]
    rfl
  split
  · have hcode : (n / 4096 % 16 * 64 + n / 64 % 64) * 64 + n % 64 = n := by omega
    rw [List.cons_append, List.cons_append, List.singleton_append, front?_three (by omega)
      (by omega) (by omega) (by omega) (by omega), hcode, hchar]
    rfl
  · have hcode : ((n / 262144 % 8 * 64 + n / 4096 % 64) * 64 + n / 64 % 64) * 64 + n % 64 = n := by
      omega
    rw [List.cons_append, List.cons_append, List.cons_append, List.singleton_append,
      front?_four (by omega) (by omega) (by omega) (by omega) (by omega) (by omega), hcode, hchar]
    rfl

theorem encode_ofNat {n : Nat} (h : n.isValidChar) : utf8EncodeChar (Char.ofNat n) =
    if n ≤ 127 then [UInt8.ofNat n]
    else if n ≤ 2047 then [UInt8.ofNat (n / 64 % 32 + 192), UInt8.ofNat (n % 64 + 128)]
    else if n ≤ 65535 then
      [UInt8.ofNat (n / 4096 % 16 + 224), UInt8.ofNat (n / 64 % 64 + 128),
        UInt8.ofNat (n % 64 + 128)]
    else
      [UInt8.ofNat (n / 262144 % 8 + 240), UInt8.ofNat (n / 4096 % 64 + 128),
        UInt8.ofNat (n / 64 % 64 + 128), UInt8.ofNat (n % 64 + 128)] := by
  have hval : (Char.ofNat n).val.toNat = n := by
    change (Char.ofNat n).toNat = n
    rw [Char.ofNat, dif_pos h]
    rfl
  simp only [utf8EncodeChar, hval]

theorem encode_two {a x n : Nat} (ha : 194 ≤ a ∧ a < 224) (hx : x < 64)
    (hn : (a - 192) * 64 + x = n) :
    utf8EncodeChar (Char.ofNat n) = [UInt8.ofNat a, UInt8.ofNat (x + 128)] := by
  have hfirst : n / 64 % 32 + 192 = a := by omega
  have hsecond : n % 64 = x := by omega
  rw [encode_ofNat (by simp only [Nat.isValidChar]; omega), if_neg (by omega), if_pos (by omega),
    hfirst, hsecond]

theorem encode_three {a x y n : Nat} (ha : 224 ≤ a ∧ a < 240) (hx : x < 64) (hy : y < 64)
    (hn : ((a - 224) * 64 + x) * 64 + y = n) (hcode : ¬ (n < 0x800 ∨ 0xD800 ≤ n ∧ n < 0xE000)) :
    utf8EncodeChar (Char.ofNat n) =
      [UInt8.ofNat a, UInt8.ofNat (x + 128), UInt8.ofNat (y + 128)] := by
  have hfirst : n / 4096 % 16 + 224 = a := by omega
  have hsecond : n / 64 % 64 = x := by omega
  have hthird : n % 64 = y := by omega
  rw [encode_ofNat (by simp only [Nat.isValidChar]; omega), if_neg (by omega), if_neg (by omega),
    if_pos (by omega), hfirst, hsecond, hthird]

theorem encode_four {a x y z n : Nat} (ha : 240 ≤ a ∧ a < 245) (hx : x < 64) (hy : y < 64)
    (hz : z < 64) (hn : (((a - 240) * 64 + x) * 64 + y) * 64 + z = n)
    (hcode : ¬ (n < 0x10000 ∨ 0x110000 ≤ n)) : utf8EncodeChar (Char.ofNat n) =
      [UInt8.ofNat a, UInt8.ofNat (x + 128), UInt8.ofNat (y + 128), UInt8.ofNat (z + 128)] := by
  have hfirst : n / 262144 % 8 + 240 = a := by omega
  have hsecond : n / 4096 % 64 = x := by omega
  have hthird : n / 64 % 64 = y := by omega
  have hfourth : n % 64 = z := by omega
  rw [encode_ofNat (by simp only [Nat.isValidChar]; omega), if_neg (by omega), if_neg (by omega),
    if_neg (by omega), hfirst, hsecond, hthird, hfourth]

theorem exists_cons_of_payload? {s : Bytes} {n : Nat} (h : s[0]?.bind payload? = some n) :
    n < 64 ∧ ∃ r, s = UInt8.ofNat (n + 128) :: r := by
  obtain ⟨b, hb, hn⟩ := Option.bind_eq_some_iff.mp h
  obtain ⟨hlt, rfl⟩ := payload?_eq_some_iff.mp hn
  cases s with
  | nil => simp at hb
  | cons c r =>
    obtain rfl := Option.some.inj hb
    exact ⟨hlt, r, rfl⟩

theorem exists_encode_of_front? {t : Bytes} {c : Char} {w : Nat} (h : front? t = some (c, w)) :
    ∃ d s, t = utf8EncodeChar d ++ s := by
  cases t with
  | nil => simp [front?] at h
  | cons b s =>
    obtain ⟨a, ha, rfl⟩ : ∃ a < 256, b = UInt8.ofNat a := ⟨b.toNat, b.toNat_lt, by simp⟩
    have hlead := ofNat_lt_iff ha
    simp only [front?, hlead, UInt8.reduceToNat, toNat_ofNat ha, Option.bind_eq_bind] at h
    split at h
    · refine ⟨Char.ofNat a, s, ?_⟩
      rw [encode_ofNat (by simp only [Nat.isValidChar]; omega), if_pos (by omega)]
      rfl
    split at h
    · simp at h
    split at h
    · obtain ⟨x, hx, -⟩ := Option.bind_eq_some_iff.mp h
      obtain ⟨hxlt, s, rfl⟩ := exists_cons_of_payload? hx
      exact ⟨_, s, by rw [encode_two (a := a) (by omega) hxlt rfl]; rfl⟩
    split at h
    · simp only [Option.bind_eq_some_iff (x := Option.bind _ _)] at h
      obtain ⟨x, hx, y, hy, h⟩ := h
      obtain ⟨hxlt, s, rfl⟩ := exists_cons_of_payload? hx
      rw [List.getElem?_cons_succ] at hy
      obtain ⟨hylt, s, rfl⟩ := exists_cons_of_payload? hy
      split at h
      · simp at h
      · exact ⟨_, s, by rw [encode_three (a := a) (by omega) hxlt hylt rfl (by omega)]; rfl⟩
    split at h
    · simp only [Option.bind_eq_some_iff (x := Option.bind _ _)] at h
      obtain ⟨x, hx, y, hy, z, hz, h⟩ := h
      obtain ⟨hxlt, s, rfl⟩ := exists_cons_of_payload? hx
      rw [List.getElem?_cons_succ] at hy hz
      obtain ⟨hylt, s, rfl⟩ := exists_cons_of_payload? hy
      rw [List.getElem?_cons_succ] at hz
      obtain ⟨hzlt, s, rfl⟩ := exists_cons_of_payload? hz
      split at h
      · simp at h
      · exact ⟨_, s, by rw [encode_four (a := a) (by omega) hxlt hylt hzlt rfl (by omega)]; rfl⟩
    · simp at h

theorem front?_eq_some_iff {t : Bytes} {c : Char} {w : Nat} :
    front? t = some (c, w) ↔
      ∃ s, t = utf8EncodeChar c ++ s ∧ w = (utf8EncodeChar c).length := by
  constructor
  · intro h
    obtain ⟨d, s, rfl⟩ := exists_encode_of_front? h
    rw [front?_encode, Option.some.injEq, Prod.mk.injEq] at h
    obtain ⟨rfl, rfl⟩ := h
    exact ⟨s, rfl, rfl⟩
  · rintro ⟨s, rfl, rfl⟩
    exact front?_encode c s

theorem exists_cons_encode (c : Char) : ∃ b s, utf8EncodeChar c = b :: s ∧
    isContinuation b = false ∧ ∀ x ∈ s, isContinuation x = true := by
  have hfront := front?_encode c []
  rw [List.append_nil] at hfront
  cases henc : utf8EncodeChar c with
  | nil => simp [henc, front?] at hfront
  | cons b s =>
    rw [henc] at hfront
    refine ⟨b, s, rfl, Bool.eq_false_iff.mpr fun hb => ?_, ?_⟩
    · rw [front?_of_isContinuation hb] at hfront
      simp at hfront
    · have hle := (width_le hfront).2
      rw [List.length_cons, Nat.add_sub_cancel, trailing] at hle
      have hall := (List.takeWhile_prefix isContinuation).eq_of_length_le hle
      rw [← hall]
      exact fun x hx => List.all_eq_true.mp List.all_takeWhile x hx

theorem exists_front?_encode (c : Char) (t : Bytes) : ∃ b s, utf8EncodeChar c = b :: s ∧
    front? (b :: (s ++ t)) = some (c, s.length + 1) := by
  obtain ⟨b, s, henc, -⟩ := exists_cons_encode c
  have hfront := front?_encode c t
  rw [henc] at hfront
  exact ⟨b, s, henc, hfront⟩

theorem eq_ofNat_of_mem_encode {b : UInt8} {c : Char} (hb : b < 0x80) (h : b ∈ utf8EncodeChar c) :
    c = Char.ofNat b.toNat := by
  obtain ⟨a, s, henc, -, hs⟩ := exists_cons_encode c
  have hfront := front?_encode c []
  rw [List.append_nil, henc] at hfront
  rw [henc] at h
  cases List.mem_cons.mp h with
  | inl heq =>
    rw [← heq, front?_ascii hb] at hfront
    exact (Prod.mk.inj (Option.some.inj hfront)).1.symm
  | inr hmem =>
    have hcontinues := hs b hmem
    rw [not_isContinuation_of_ascii hb] at hcontinues
    exact absurd hcontinues Bool.false_ne_true

theorem trailing_encode (c : Char) (s : Bytes) : trailing (utf8EncodeChar c ++ s) = 0 := by
  obtain ⟨b, r, henc, hb, -⟩ := exists_cons_encode c
  rw [henc, List.cons_append, trailing_cons, hb, if_neg Bool.false_ne_true]

theorem length_encode_pos (c : Char) : 0 < (utf8EncodeChar c).length := by
  obtain ⟨b, s, henc, -⟩ := exists_cons_encode c
  rw [henc]
  exact Nat.succ_pos _

/-- A text is read as characters and as bytes that belong to none, one after the other. -/
theorem reading_induction {P : Bytes → Prop} (hnil : P [])
    (hnone : ∀ b s, front? (b :: s) = none → P s → P (b :: s))
    (hchar : ∀ c s, P s → P (utf8EncodeChar c ++ s)) (t : Bytes) : P t := by
  induction hn : t.length using Nat.strongRecOn generalizing t with
  | ind n ih =>
    cases t with
    | nil => exact hnil
    | cons b s =>
      cases hfront : front? (b :: s) with
      | none => exact hnone b s hfront (ih s.length (by rw [← hn]; simp) s rfl)
      | some cw =>
        obtain ⟨r, heq, -⟩ := front?_eq_some_iff.mp hfront
        have hpos := length_encode_pos cw.1
        rw [heq, List.length_append] at hn
        rw [heq]
        exact hchar cw.1 r (ih r.length (by omega) r rfl)

theorem charsAfter?_append (s t : Bytes) : charsAfter? s.length (s ++ t) = chars? t := by
  induction s with
  | nil => rfl
  | cons b s ih => exact ih

theorem chars?_encode (c : Char) (t : Bytes) :
    chars? (utf8EncodeChar c ++ t) = (chars? t).map (c :: ·) := by
  obtain ⟨b, s, henc, hfront⟩ := exists_front?_encode c t
  rw [henc, chars?, List.cons_append, charsAfter?, hfront]
  simp only [Nat.add_sub_cancel, charsAfter?_append]

theorem chars?_eq_some_iff {t : Bytes} {cs : List Char} :
    chars? t = some cs ↔ t = cs.flatMap utf8EncodeChar := by
  constructor
  · induction t using reading_induction generalizing cs with
    | hnil =>
      intro h
      obtain rfl : cs = [] := by simpa [chars?, charsAfter?] using h.symm
      rfl
    | hnone b s hfront ih =>
      intro h
      simp [chars?, charsAfter?, hfront] at h
    | hchar c s ih =>
      intro h
      rw [chars?_encode, Option.map_eq_some_iff] at h
      obtain ⟨ds, hds, rfl⟩ := h
      rw [List.flatMap_cons, ← ih hds]
  · rintro rfl
    induction cs with
    | nil => rfl
    | cons c cs ih => rw [List.flatMap_cons, chars?_encode, ih, Option.map_some]

end Utf8

namespace Bytes
open Utf8
open String (utf8EncodeChar)
variable (p : Char → Bool)

theorem runAfter_append (s t : Bytes) : runAfter p s.length (s ++ t) = s.length + run p t := by
  induction s with
  | nil => simp [run]
  | cons b s ih =>
    rw [List.length_cons, List.cons_append, runAfter, ih]
    omega

theorem run_encode (c : Char) (t : Bytes) : run p (utf8EncodeChar c ++ t) =
    if p c then (utf8EncodeChar c).length + run p t else 0 := by
  obtain ⟨b, s, henc, hfront⟩ := exists_front?_encode c t
  rw [henc, run, List.cons_append, runAfter, hfront]
  simp only [List.length_cons, Nat.add_sub_cancel, runAfter_append]
  split <;> omega

theorem exists_chars_run (t : Bytes) :
    ∃ cs : List Char, t.take (run p t) = cs.flatMap utf8EncodeChar ∧ ∀ c ∈ cs, p c = true := by
  have hzero : ∀ t : Bytes, run p t = 0 →
      ∃ cs : List Char, t.take (run p t) = cs.flatMap utf8EncodeChar ∧ ∀ c ∈ cs, p c = true := by
    intro t h
    exact ⟨[], by rw [h]; rfl, by simp⟩
  induction t using reading_induction with
  | hnil => exact hzero [] rfl
  | hnone b s hfront ih => exact hzero _ (by simp [run, runAfter, hfront])
  | hchar c s ih =>
    cases hc : p c with
    | false => exact hzero _ (by rw [run_encode, hc, if_neg Bool.false_ne_true])
    | true =>
      obtain ⟨cs, hcs, hall⟩ := ih
      refine ⟨c :: cs, ?_, List.forall_mem_cons.mpr ⟨hc, hall⟩⟩
      rw [run_encode, hc, if_pos rfl, List.take_length_add_append, hcs, List.flatMap_cons]

theorem marksAfter_append_length (current : Bool) (s t : Bytes) :
    marksAfter p s.length current (s ++ t) = List.replicate s.length current ++ marks p t := by
  induction s with
  | nil => exact marksAfter_zero current t
  | cons b s ih =>
    rw [List.length_cons, List.cons_append, marksAfter, ih]
    rfl

theorem marks_encode (c : Char) (t : Bytes) : marks p (utf8EncodeChar c ++ t) =
    List.replicate (utf8EncodeChar c).length (p c) ++ marks p t := by
  obtain ⟨b, s, henc, hfront⟩ := exists_front?_encode c t
  rw [henc, marks, List.cons_append, marksAfter, hfront]
  simp only [List.length_cons, Nat.add_sub_cancel, marksAfter_append_length]
  rfl

theorem getLast?_replicate_encode (c : Char) (mark : Bool) :
    (List.replicate (utf8EncodeChar c).length mark).getLast? = some mark := by
  rw [List.getLast?_replicate, if_neg (Nat.ne_of_gt (length_encode_pos c))]

theorem getLast?_marks (t : Bytes) :
    (marks p t).getLast? = some true ↔ ∃ c, p c = true ∧ utf8EncodeChar c <:+ t := by
  constructor
  · induction t using reading_induction with
    | hnil => simp [marks, marksAfter]
    | hnone b s hfront ih =>
      intro h
      have hmarks : marks p (b :: s) = [false] ++ marks p s := by
        rw [marks, marksAfter, hfront, List.singleton_append, ← marksAfter_zero false s]
      rw [hmarks, List.getLast?_append] at h
      have hlast : (marks p s).getLast? = some true := by
        cases hs : (marks p s).getLast? with
        | none => simp [hs] at h
        | some last => simpa [hs] using h
      obtain ⟨c, hc, hsuffix⟩ := ih hlast
      exact ⟨c, hc, hsuffix.trans (List.suffix_cons b s)⟩
    | hchar c s ih =>
      intro h
      rw [marks_encode, List.getLast?_append] at h
      cases hs : (marks p s).getLast? with
      | none =>
        have hempty : s = [] := by
          rw [← List.length_eq_zero_iff, ← length_marks p s, List.getLast?_eq_none_iff.mp hs]
          rfl
        rw [hs, getLast?_replicate_encode, Option.none_or, Option.some.injEq] at h
        exact ⟨c, h, by simp [hempty]⟩
      | some last =>
        have hlast : (marks p s).getLast? = some true := by simpa [hs] using h
        obtain ⟨d, hd, hsuffix⟩ := ih hlast
        exact ⟨d, hd, hsuffix.trans (List.suffix_append _ s)⟩
  · rintro ⟨c, hc, s, rfl⟩
    have hend := trailing_encode c []
    have hmarks := marks_encode p c []
    rw [List.append_nil] at hend hmarks
    have hnil : marks p [] = [] := rfl
    rw [marks_append hend, hmarks, hnil, List.append_nil, List.getLast?_append, hc,
      getLast?_replicate_encode, Option.some_or]

theorem notMem_ofString {b : UInt8} {s : String} (hb : b < 0x80)
    (h : Char.ofNat b.toNat ∉ s.toList) : b ∉ ofString s := by
  intro hmem
  obtain ⟨c, hc, hbyte⟩ := List.mem_flatMap.mp hmem
  exact h (Utf8.eq_ofNat_of_mem_encode hb hbyte ▸ hc)

theorem ofString_ne_nil {s : String} (h : s ≠ "") : ofString s ≠ [] := by
  intro hnil
  refine h (String.toList_eq_nil_iff.mp ?_)
  cases hs : s.toList with
  | nil => rfl
  | cons c cs =>
    have hpos := Utf8.length_encode_pos c
    rw [ofString, hs, List.flatMap_cons, List.append_eq_nil_iff] at hnil
    rw [hnil.1] at hpos
    exact absurd hpos (Nat.lt_irrefl 0)

end Bytes

end FieldTags
