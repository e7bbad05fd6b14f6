import FieldTags.Proofs.Lexical.Division

/-! The scan that takes both bytes of a pair in one step and looks one byte ahead for it. Its reads of
the text and its writes to the mask can fail; none does, and it finds the events and the mask of the
modes. -/
namespace FieldTags

/-- One step of the scan. It may go past the end of the text, after a backslash that escapes nothing. -/
structure Stride where
  next : Region
  consumed : Nat
  event : Option EventKind
  deriving DecidableEq, Repr

namespace Region

def stride (r : Region) (b : UInt8) (following : Option UInt8) : Stride :=
  match r with
  | .code =>
    if b = Ascii.slash ∧ following = some Ascii.slash then ⟨.lineComment, 2, none⟩
    else if b = Ascii.slash ∧ following = some Ascii.asterisk then ⟨.blockComment, 2, none⟩
    else if b = Ascii.doubleQuote then ⟨.quoted .double, 1, none⟩
    else if b = Ascii.singleQuote then ⟨.quoted .single, 1, none⟩
    else ⟨.code, 1, EventKind.inCode? b⟩
  | .lineComment =>
    if b = Ascii.newline then ⟨.code, 1, some .lineBreak⟩ else ⟨.lineComment, 1, none⟩
  | .blockComment =>
    if b = Ascii.asterisk ∧ following = some Ascii.slash then ⟨.code, 2, some .commentEnd⟩
    else ⟨.blockComment, 1, none⟩
  | .quoted q =>
    if b = Ascii.backslash then ⟨.quoted q, 2, none⟩
    else if b = q.byte then ⟨.code, 1, none⟩
    else ⟨.quoted q, 1, none⟩

theorem consumed_pos (r : Region) (b : UInt8) (following : Option UInt8) :
    0 < (r.stride b following).consumed := by
  cases r <;> simp only [stride] <;> split_ifs <;> simp only [Nat.zero_lt_one, Nat.zero_lt_two]

def mode : Region → Mode
  | .code => .code
  | .lineComment => .lineComment
  | .blockComment => .blockComment
  | .quoted q => .quoted q

end Region

theorem Mode.star_eq_blockComment {t : Bytes} (h : t.head? ≠ some Ascii.slash) :
    codeMaskFrom .star t = codeMaskFrom .blockComment t ∧
      ∀ position, eventsFrom .star position t = eventsFrom .blockComment position t := by
  cases t with
  | nil => exact ⟨rfl, fun _ => rfl⟩
  | cons b t =>
    have hs : b ≠ Ascii.slash := by simpa using h
    have hnext : Mode.next .star b = Mode.next .blockComment b := by simp [next, hs]
    refine ⟨by rw [codeMaskFrom, codeMaskFrom, hnext]; rfl, fun position => ?_⟩
    rw [eventsFrom, eventsFrom, hnext]
    simp [event?, hs]

namespace Stride
variable {r next : Region} {b c : UInt8} {event : Option EventKind} {rest : Bytes}

def IsCode (r : Region) (s : Stride) : Prop := r = .code ∧ s.next = .code

instance (r : Region) (s : Stride) : Decidable (s.IsCode r) :=
  inferInstanceAs (Decidable (_ ∧ _))

/-- What a scan by modes finds in the bytes of a step at the front of the text `t`. -/
structure Covers (r : Region) (s : Stride) (t : Bytes) : Prop where
  mask : codeMaskFrom r.mode t =
    List.replicate (min s.consumed t.length) (decide (s.IsCode r)) ++
      codeMaskFrom s.next.mode (t.drop s.consumed)
  events : ∀ position, eventsFrom r.mode position t =
    (s.event.map (⟨·, position + s.consumed - 1⟩)).toList ++
      eventsFrom s.next.mode (position + s.consumed) (t.drop s.consumed)

theorem Covers.one (hmask : codeMaskFrom (r.mode.next b) rest = codeMaskFrom next.mode rest)
    (hevents : ∀ position,
      eventsFrom (r.mode.next b) position rest = eventsFrom next.mode position rest)
    (hshows : r.mode.shows b rest.head? = decide (r = .code ∧ next = .code))
    (hevent : r.mode.event? b = event) : Covers r ⟨next, 1, event⟩ (b :: rest) where
  mask := by
    have hmin : min 1 (b :: rest).length = 1 := Nat.min_eq_left (Nat.le_add_left 1 _)
    rw [codeMaskFrom, hmask, hshows, hmin]
    rfl
  events position := by
    rw [eventsFrom, hevents, hevent]
    rfl

theorem Covers.of_next (hnext : r.mode.next b = next.mode)
    (hshows : r.mode.shows b rest.head? = decide (r = .code ∧ next = .code))
    (hevent : r.mode.event? b = event) : Covers r ⟨next, 1, event⟩ (b :: rest) :=
  .one (by rw [hnext]) (fun _ => by rw [hnext]) hshows hevent

theorem Covers.two (hnext : (r.mode.next b).next c = next.mode)
    (hfirst : r.mode.shows b (some c) = false ∧ r.mode.event? b = none)
    (hsecond : (∀ following, (r.mode.next b).shows c following = false) ∧
      (r.mode.next b).event? c = event)
    (hcode : ¬ (r = .code ∧ next = .code)) : Covers r ⟨next, 2, event⟩ (b :: c :: rest) where
  mask := by
    have hfalse : decide (IsCode r ⟨next, 2, event⟩) = false := decide_eq_false hcode
    have hmin : min 2 (b :: c :: rest).length = 2 := Nat.min_eq_left (Nat.le_add_left 2 _)
    rw [codeMaskFrom, codeMaskFrom, hnext, List.head?_cons, hfirst.1, hsecond.1, hfalse, hmin]
    rfl
  events position := by
    rw [eventsFrom, eventsFrom, hnext, hfirst.2, hsecond.2]
    rfl

theorem covers_slash (rest : Bytes) :
    Covers .code (Region.code.stride Ascii.slash rest.head?) (Ascii.slash :: rest) := by
  by_cases hs : rest.head? = some Ascii.slash
  · obtain ⟨rest, rfl⟩ := List.head?_eq_some_iff.mp hs
    exact .two (by decide) (by decide) ⟨fun _ => rfl, by decide⟩ (by decide)
  · by_cases ha : rest.head? = some Ascii.asterisk
    · obtain ⟨rest, rfl⟩ := List.head?_eq_some_iff.mp ha
      exact .two (by decide) (by decide) ⟨fun _ => rfl, by decide⟩ (by decide)
    · have hsame := Mode.slash_eq_code ⟨hs, ha⟩
      have hshows : Mode.shows .code Ascii.slash rest.head? = true := by
        simp [Mode.shows, hs, ha]
      simp only [Region.stride, hs, ha, and_false, if_false]
      exact .one hsame.1 hsame.2.1 hshows (by decide)

theorem covers_code (b : UInt8) (rest : Bytes) :
    Covers .code (Region.code.stride b rest.head?) (b :: rest) := by
  by_cases hb : b = Ascii.slash
  · rw [hb]
    exact covers_slash rest
  · by_cases hd : b = Ascii.doubleQuote
    · rw [hd]
      exact .of_next (by decide) rfl (by decide)
    · by_cases hq : b = Ascii.singleQuote
      · rw [hq]
        exact .of_next (by decide) rfl (by decide)
      · have hnext : Mode.next .code b = .code := by simp [Mode.next, Mode.nextInCode, hb, hd, hq]
        have hshows : Mode.shows .code b rest.head? = true := by simp [Mode.shows, hb, hd, hq]
        simp only [Region.stride, hb, hd, hq, false_and, if_false]
        exact .of_next hnext hshows rfl

theorem covers_lineComment (b : UInt8) (rest : Bytes) :
    Covers .lineComment (Region.lineComment.stride b rest.head?) (b :: rest) := by
  by_cases hb : b = Ascii.newline
  · subst hb
    exact .of_next rfl rfl rfl
  · have hnext : Mode.next .lineComment b = .lineComment := by simp [Mode.next, hb]
    have hevent : Mode.event? .lineComment b = none := by simp [Mode.event?, hb]
    simp only [Region.stride, hb, if_false]
    exact .of_next hnext rfl hevent

theorem covers_blockComment (b : UInt8) (rest : Bytes) :
    Covers .blockComment (Region.blockComment.stride b rest.head?) (b :: rest) := by
  by_cases hb : b = Ascii.asterisk
  · subst hb
    by_cases hs : rest.head? = some Ascii.slash
    · obtain ⟨rest, rfl⟩ := List.head?_eq_some_iff.mp hs
      exact .two (by decide) (by decide) ⟨fun _ => rfl, by decide⟩ (by decide)
    · have hsame := Mode.star_eq_blockComment hs
      simp only [Region.stride, hs, and_false, if_false]
      exact .one hsame.1 hsame.2 rfl rfl
  · have hnext : Mode.next .blockComment b = .blockComment := by simp [Mode.next, hb]
    simp only [Region.stride, hb, false_and, if_false]
    exact .of_next hnext rfl rfl

theorem covers_quoted (q : Quote) (b : UInt8) (rest : Bytes) :
    Covers (.quoted q) ((Region.quoted q).stride b rest.head?) (b :: rest) := by
  by_cases hb : b = Ascii.backslash
  · subst hb
    cases rest with
    | nil => exact ⟨rfl, fun _ => rfl⟩
    | cons c rest => exact .two rfl ⟨rfl, rfl⟩ ⟨fun _ => rfl, rfl⟩ (by simp)
  · by_cases hq : b = q.byte
    · have hnext : Mode.next (.quoted q) b = .code := by
        rw [Mode.next, if_neg hb, if_pos hq]
      rw [Region.stride, if_neg hb, if_pos hq]
      exact .of_next hnext rfl rfl
    · have hnext : Mode.next (.quoted q) b = .quoted q := by simp [Mode.next, hb, hq]
      simp only [Region.stride, hb, hq, if_false]
      exact .of_next hnext rfl rfl

end Stride

theorem Region.covers (r : Region) (b : UInt8) (rest : Bytes) :
    (r.stride b rest.head?).Covers r (b :: rest) := by
  cases r with
  | code => exact Stride.covers_code b rest
  | lineComment => exact Stride.covers_lineComment b rest
  | blockComment => exact Stride.covers_blockComment b rest
  | quoted q => exact Stride.covers_quoted q b rest

theorem Region.covers_at (r : Region) {t : Bytes} {i : Nat} (hi : i < t.length) :
    (r.stride t[i] t[i + 1]?).Covers r (t.drop i) := by
  rw [List.drop_eq_getElem_cons hi, ← List.head?_drop]
  exact r.covers t[i] (t.drop (i + 1))

/-- The events from the offset `i` on, read step by step. -/
def stepEvents? (t : Bytes) (r : Region) (i : Nat) : Option (List Event) :=
  if i < t.length then do
    let b ← t[i]?
    let s := r.stride b t[i + 1]?
    let later ← stepEvents? t s.next (i + s.consumed)
    pure ((s.event.map (⟨·, i + s.consumed - 1⟩)).toList ++ later)
  else some []
termination_by t.length - i
decreasing_by
  have hpos := r.consumed_pos b t[i + 1]?
  omega

/-- The list with `x` at the offsets from `start` up to `stop`. -/
def fill? (mask : List Bool) (start stop : Nat) (x : Bool) : Option (List Bool) :=
  if start ≤ stop ∧ stop ≤ mask.length then
    some (mask.take start ++ List.replicate (stop - start) x ++ mask.drop stop)
  else none

/-- The mask, written step by step from the offset `i` on. -/
def stepMask? (t : Bytes) (r : Region) (i : Nat) (mask : List Bool) : Option (List Bool) :=
  if i < t.length then do
    let b ← t[i]?
    let s := r.stride b t[i + 1]?
    let filled ← fill? mask i (min (i + s.consumed) t.length) (decide (s.IsCode r))
    stepMask? t s.next (i + s.consumed) filled
  else some mask
termination_by t.length - i
decreasing_by
  have hpos := r.consumed_pos b t[i + 1]?
  omega

theorem stepEvents?_eq (t : Bytes) (r : Region) (i : Nat) :
    stepEvents? t r i = some (eventsFrom r.mode i (t.drop i)) := by
  -- Over the bytes that are left, of which a step takes one or two.
  induction hn : t.length - i using Nat.strong_induction_on generalizing r i with
  | _ n ih =>
    rw [stepEvents?]
    by_cases hi : i < t.length
    · have hpos := r.consumed_pos t[i] t[i + 1]?
      have hcovers := Region.covers_at r hi
      rw [if_pos hi, List.getElem?_eq_getElem hi]
      simp only [Option.bind_eq_bind, Option.bind_some]
      generalize r.stride t[i] t[i + 1]? = s at hpos hcovers ⊢
      rw [ih _ (by omega) s.next (i + s.consumed) rfl, hcovers.events, List.drop_drop]
      rfl
    · rw [if_neg hi, List.drop_eq_nil_of_le (by omega)]
      rfl

theorem take_of_fill? {mask filled : List Bool} {start stop n : Nat} {x : Bool}
    (h : fill? mask start stop x = some filled) (hstop : stop = min n mask.length) :
    filled.length = mask.length ∧
      filled.take n = mask.take start ++ List.replicate (stop - start) x := by
  obtain ⟨⟨hle, hlen⟩, hfilled⟩ := Option.ite_none_right_eq_some.mp h
  have hfilled := Option.some.inj hfilled
  have hfront : (mask.take start ++ List.replicate (stop - start) x).length = stop := by
    rw [List.length_append, List.length_take, List.length_replicate]
    omega
  constructor
  · rw [← hfilled, List.length_append, hfront, List.length_drop]
    omega
  · cases Nat.le_total n mask.length with
    | inl hn =>
      have hnstop : n = stop := by omega
      rw [← hfilled, hnstop, List.take_left' hfront]
    | inr hn =>
      have hall : stop = mask.length := by omega
      rw [← hfilled, List.drop_eq_nil_of_le (by omega), List.append_nil,
        List.take_of_length_le (by omega)]

theorem stepMask?_eq {t : Bytes} {r : Region} {i : Nat} {mask : List Bool}
    (hmask : mask.length = t.length) :
    stepMask? t r i mask = some (mask.take i ++ codeMaskFrom r.mode (t.drop i)) := by
  induction hn : t.length - i using Nat.strong_induction_on generalizing r i mask with
  | _ n ih =>
    rw [stepMask?]
    by_cases hi : i < t.length
    · have hpos := r.consumed_pos t[i] t[i + 1]?
      have hcovers := Region.covers_at r hi
      rw [if_pos hi, List.getElem?_eq_getElem hi]
      simp only [Option.bind_eq_bind, Option.bind_some]
      generalize r.stride t[i] t[i + 1]? = s at hpos hcovers ⊢
      have hcount : min s.consumed (t.drop i).length = min (i + s.consumed) t.length - i := by
        rw [List.length_drop]
        omega
      obtain ⟨filled, hfilled⟩ : ∃ filled,
          fill? mask i (min (i + s.consumed) t.length) (decide (s.IsCode r)) = some filled :=
        ⟨_, if_pos (by omega)⟩
      obtain ⟨hlength, htake⟩ := take_of_fill? hfilled (congrArg (min (i + s.consumed)) hmask.symm)
      rw [hfilled, Option.bind_some, ih _ (by omega) (hlength.trans hmask) rfl, htake,
        hcovers.mask, hcount, List.drop_drop, List.append_assoc]
    · rw [if_neg hi, List.drop_eq_nil_of_le (by omega), codeMaskFrom, List.append_nil,
        List.take_of_length_le (by omega)]

end FieldTags
