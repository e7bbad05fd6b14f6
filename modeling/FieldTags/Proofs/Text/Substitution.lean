import FieldTags.Proofs.Text.Pieces
import FieldTags.Text.Edit

/-! Simultaneous substitution. All ranges speak of the text before any of them is replaced, and
where several edits have one range the first of them counts. -/
namespace FieldTags

def Bytes.IsNumber (t : Bytes) : Prop := t ≠ [] ∧ ∀ b ∈ t, Ascii.isDigit b = true

instance (t : Bytes) : Decidable t.IsNumber := inferInstanceAs (Decidable (_ ∧ _))

theorem Ascii.isNumber_decimal (n : Nat) : (Ascii.decimal n).IsNumber := by
  constructor
  · simp [Ascii.decimal, Nat.toDigits_ne_nil]
  · intro b hb
    obtain ⟨c, hc, rfl⟩ := List.mem_map.mp hb
    have hd := Nat.isDigit_of_mem_toDigits (by decide) (by decide) hc
    have hr : 48 ≤ c.toNat ∧ c.toNat ≤ 57 := by
      simpa [Char.isDigit, UInt32.le_iff_toNat_le] using hd
    have hn : c.toUInt8.toNat = c.toNat := by
      rw [Char.toUInt8, UInt32.toNat_toUInt8]
      exact Nat.mod_eq_of_lt (by have := hr.2; change c.toNat < _; omega)
    simp only [Ascii.isDigit, Bool.and_eq_true, decide_eq_true_eq, UInt8.le_iff_toNat_le, hn]
    exact hr

namespace Edit

def move (φ : Nat → Nat) (e : Edit) : Edit := ⟨φ e.start, φ e.stop, e.text⟩

theorem exists_find?_start {es : List Edit} {e : Edit} (he : e ∈ es) :
    ∃ f ∈ es, es.find? (·.start = e.start) = some f ∧ f.start = e.start := by
  obtain ⟨f, hf⟩ : ∃ f, es.find? (·.start = e.start) = some f := by
    rw [← Option.isSome_iff_exists, List.find?_isSome]
    exact ⟨e, he, by simp⟩
  exact ⟨f, List.mem_of_find?_eq_some hf, hf, by simpa using List.find?_some hf⟩

/-- Replaces the ranges in the rest of a text, `skip` bytes of which belong to a range already
replaced. -/
def substituteFrom (es : List Edit) : Nat → Nat → Bytes → Bytes
  | _, _, [] => []
  | position, skip + 1, _ :: rest => substituteFrom es (position + 1) skip rest
  | position, 0, b :: rest =>
    match es.find? (·.start = position) with
    | some e => e.text ++ substituteFrom es (position + 1) (e.stop - e.start - 1) rest
    | none => b :: substituteFrom es (position + 1) 0 rest

def substitute (es : List Edit) (t : Bytes) : Bytes := substituteFrom es 0 0 t

theorem substituteFrom_skip (es : List Edit) (position skip : Nat) (t : Bytes) :
    substituteFrom es position skip t = substituteFrom es (position + skip) 0 (t.drop skip) := by
  induction t generalizing position skip with
  | nil => simp [substituteFrom]
  | cons b t ih =>
    cases skip with
    | zero => rfl
    | succ skip =>
      rw [substituteFrom, ih, List.drop_succ_cons]
      congr 1
      omega

theorem substituteFrom_append {es : List Edit} {position : Nat} {s : Bytes} (t : Bytes)
    (h : ∀ e ∈ es, e.start < position ∨ position + s.length ≤ e.start) :
    substituteFrom es position 0 (s ++ t) =
      s ++ substituteFrom es (position + s.length) 0 t := by
  induction s generalizing position with
  | nil => rfl
  | cons b s ih =>
    have hn : es.find? (·.start = position) = none := by
      rw [List.find?_eq_none]
      intro e he hs
      have := h e he
      simp only [decide_eq_true_eq, List.length_cons] at hs this
      omega
    rw [List.cons_append, substituteFrom, hn, ih]
    · simp only [List.cons_append, List.length_cons, Nat.add_assoc, Nat.add_comm 1]
    · intro e he
      have hp := h e he
      have hne : e.start ≠ position := by
        intro hs
        have := List.find?_eq_none.mp hn e he
        simp [hs] at this
      simp only [List.length_cons] at hp
      omega

theorem substituteFrom_find? {es : List Edit} {e : Edit} {position : Nat} {s : Bytes}
    (he : es.find? (·.start = position) = some e) (hs : s ≠ [])
    (hstop : e.stop = position + s.length) (t : Bytes) :
    substituteFrom es position 0 (s ++ t) =
      e.text ++ substituteFrom es (position + s.length) 0 t := by
  obtain ⟨b, r, rfl⟩ := List.exists_cons_of_ne_nil hs
  have hstart : e.start = position := by simpa using List.find?_some he
  have hskip : e.stop - e.start - 1 = r.length := by
    rw [hstop, hstart, List.length_cons]
    omega
  have hnext : position + 1 + r.length = position + (b :: r).length := by
    rw [List.length_cons]
    omega
  rw [List.cons_append, substituteFrom, he]
  simp only
  rw [hskip, substituteFrom_skip, List.drop_left, hnext]

theorem substituteFrom_cons_of_lt {e : Edit} {position : Nat} (h : e.start < position)
    (es : List Edit) (t : Bytes) :
    substituteFrom (e :: es) position 0 t = substituteFrom es position 0 t := by
  suffices hs : ∀ skip, substituteFrom (e :: es) position skip t =
      substituteFrom es position skip t from hs 0
  induction t generalizing position with
  | nil => simp [substituteFrom]
  | cons b t ih =>
    have ih := @ih (position + 1) (by omega)
    have hf : (e :: es).find? (·.start = position) = es.find? (·.start = position) := by
      rw [List.find?_cons_of_neg]
      simp
      omega
    intro skip
    cases skip with
    | zero => simp only [substituteFrom, hf, ih]
    | succ skip => simp only [substituteFrom, ih]

/-- Ascending edits of nonempty ranges, none of which begins before `position` or ends after
`stop`. -/
def Ascending (position stop : Nat) : List Edit → Prop
  | [] => True
  | e :: es => position ≤ e.start ∧ e.start < e.stop ∧ e.stop ≤ stop ∧ Ascending e.stop stop es

theorem Ascending.le_start {es : List Edit} {position stop : Nat} (h : Ascending position stop es) :
    ∀ e ∈ es, position ≤ e.start := by
  induction es generalizing position with
  | nil => simp
  | cons e es ih =>
    obtain ⟨hp, hs, -, ht⟩ := h
    intro f hf
    rcases List.mem_cons.mp hf with rfl | hf
    · exact hp
    · have := ih ht f hf
      omega

theorem applyFrom_eq_substituteFrom {es : List Edit} {position : Nat} {t : Bytes}
    (h : Ascending position (position + t.length) es) :
    applyFrom position es t = substituteFrom es position 0 t := by
  induction es generalizing position t with
  | nil =>
    have hs := @substituteFrom_append [] position t [] (by simp)
    simpa [applyFrom, substituteFrom] using hs.symm
  | cons e es ih =>
    obtain ⟨hp, hs, ht, hes⟩ := h
    have hl : (t.take (e.start - position)).length = e.start - position := by
      rw [List.length_take]
      omega
    have hout : ∀ f ∈ e :: es, f.start < position ∨
        position + (t.take (e.start - position)).length ≤ f.start := by
      intro f hf
      right
      rw [hl]
      rcases List.mem_cons.mp hf with rfl | hf
      · omega
      · have := hes.le_start f hf
        omega
    have hkeep := substituteFrom_append (t.drop (e.start - position)) hout
    rw [List.take_append_drop, hl, Nat.add_sub_cancel' hp] at hkeep
    obtain ⟨b, rest, hb⟩ : ∃ b rest, t.drop (e.start - position) = b :: rest := by
      apply List.exists_cons_of_ne_nil
      rw [Ne, List.drop_eq_nil_iff]
      omega
    have hrest : rest.drop (e.stop - e.start - 1) = t.drop (e.stop - position) := by
      have hd : rest = t.drop (e.start - position + 1) := by
        rw [← List.drop_drop, hb]
        rfl
      rw [hd, List.drop_drop]
      congr 1
      omega
    rw [hkeep, hb, substituteFrom, List.find?_cons_of_pos (by simp), applyFrom, List.append_assoc]
    simp only
    rw [substituteFrom_skip, hrest, substituteFrom_cons_of_lt (by omega)]
    have hstop : e.start + 1 + (e.stop - e.start - 1) = e.stop := by omega
    rw [hstop, ih]
    convert hes using 1
    rw [List.length_drop]
    omega

theorem applyAll_eq_substitute {es : List Edit} {t : Bytes} (h : Ascending 0 t.length es) :
    applyAll es t = substitute es t :=
  applyFrom_eq_substituteFrom (by simpa using h)

theorem find?_map_shift (es : List Edit) (k i : Nat) :
    (es.map (shift k)).find? (·.start = k + i) = (es.find? (·.start = i)).map (shift k) := by
  rw [List.find?_map]
  congr 2
  funext e
  simp [shift]

theorem find?_map_shift_of_lt (es : List Edit) {k i : Nat} (h : i < k) :
    (es.map (shift k)).find? (·.start = i) = none := by
  rw [List.find?_eq_none]
  intro e he
  obtain ⟨d, -, rfl⟩ := List.mem_map.mp he
  have : k + d.start ≠ i := by omega
  simp [shift, this]

theorem find?_eq_none_of_inside {es : List Edit} {n i : Nat} (h : ∀ e ∈ es, e.start < n)
    (hi : n ≤ i) : es.find? (·.start = i) = none := by
  rw [List.find?_eq_none]
  intro e he
  have := h e he
  have : e.start ≠ i := by omega
  simp [this]

theorem substituteFrom_left {es fs : List Edit} {position skip : Nat} {s : Bytes} (t : Bytes)
    (hfs : ∀ f ∈ fs, f.start < f.stop ∧ f.stop ≤ position + s.length) (hskip : skip ≤ s.length)
    (hes : ∀ i, position ≤ i → i < position + s.length →
      es.find? (·.start = i) = fs.find? (·.start = i)) :
    substituteFrom es position skip (s ++ t) =
      substituteFrom fs position skip s ++ substituteFrom es (position + s.length) 0 t := by
  induction s generalizing position skip with
  | nil =>
    obtain rfl : skip = 0 := Nat.le_zero.mp hskip
    simp [substituteFrom]
  | cons b s ih =>
    rw [List.length_cons] at hfs hskip hes
    have hlen : position + (s.length + 1) = position + 1 + s.length := by omega
    rw [hlen] at hfs hes
    have hlater : ∀ i, position + 1 ≤ i → i < position + 1 + s.length →
        es.find? (·.start = i) = fs.find? (·.start = i) := fun i hi => hes i (by omega)
    rw [List.length_cons, hlen, List.cons_append]
    cases skip with
    | succ skip =>
      rw [substituteFrom, substituteFrom, ih hfs (by omega) hlater]
    | zero =>
      rw [substituteFrom, substituteFrom, hes position (Nat.le_refl _) (by omega)]
      cases hf : fs.find? (·.start = position) with
      | none => simp only [ih hfs (Nat.zero_le _) hlater, List.cons_append]
      | some f =>
        have hin := hfs f (List.mem_of_find?_eq_some hf)
        have hstart : f.start = position := by simpa using List.find?_some hf
        simp only [ih hfs (show f.stop - f.start - 1 ≤ s.length by omega) hlater,
          List.append_assoc]

theorem substituteFrom_right {es gs : List Edit} (k : Nat)
    (hes : ∀ i, es.find? (·.start = k + i) = (gs.find? (·.start = i)).map (shift k))
    (position skip : Nat) (t : Bytes) :
    substituteFrom es (k + position) skip t = substituteFrom gs position skip t := by
  induction t generalizing position skip with
  | nil => simp [substituteFrom]
  | cons b t ih =>
    cases skip with
    | succ skip => rw [substituteFrom, substituteFrom, Nat.add_assoc, ih]
    | zero =>
      rw [substituteFrom, substituteFrom, hes]
      cases gs.find? (·.start = position) with
      | none => simp only [Option.map_none, Nat.add_assoc, ih]
      | some g =>
        simp only [Option.map_some, shift, Nat.add_assoc, ih, Nat.add_sub_add_left]

theorem substitute_append {es fs gs : List Edit} {s t : Bytes}
    (hfs : ∀ f ∈ fs, f.start < f.stop ∧ f.stop ≤ s.length)
    (hleft : ∀ i < s.length, es.find? (·.start = i) = fs.find? (·.start = i))
    (hright : ∀ i, es.find? (·.start = s.length + i) =
      (gs.find? (·.start = i)).map (shift s.length)) :
    substitute es (s ++ t) = substitute fs s ++ substitute gs t := by
  have hsplit := @substituteFrom_left es fs 0 0 s t (by simpa using hfs) (Nat.zero_le _)
    (fun i _ hi => hleft i (by omega))
  rw [Nat.zero_add] at hsplit
  have hshift := substituteFrom_right s.length hright 0 0 t
  rw [Nat.add_zero] at hshift
  rw [substitute, hsplit, hshift]
  rfl

@[simp] theorem substitute_nil (t : Bytes) : substitute [] t = t := by
  have h := @substituteFrom_append [] 0 t [] (by simp)
  rw [List.append_nil, substituteFrom, List.append_nil] at h
  exact h

theorem substitute_framed {es : List Edit} {t : Bytes}
    (h : ∀ e ∈ es, e.start < e.stop ∧ e.stop ≤ t.length) (o c : Bytes) :
    substitute (es.map (shift o.length)) (o ++ t ++ c) = o ++ substitute es t ++ c := by
  have hafter : substitute es (t ++ c) = substitute es t ++ substitute [] c := by
    refine substitute_append h (fun _ _ => rfl) fun i => ?_
    exact find?_eq_none_of_inside (fun e he => Nat.lt_of_lt_of_le (h e he).1 (h e he).2)
      (Nat.le_add_right _ i)
  have hbefore : substitute (es.map (shift o.length)) (o ++ (t ++ c)) =
      substitute [] o ++ substitute es (t ++ c) :=
    substitute_append (by simp) (fun i hi => find?_map_shift_of_lt es hi) fun i =>
      find?_map_shift es o.length i
  rw [List.append_assoc, hbefore, hafter, substitute_nil, substitute_nil, List.append_assoc]

end Edit
end FieldTags
