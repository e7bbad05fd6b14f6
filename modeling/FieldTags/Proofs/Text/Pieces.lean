import FieldTags.Text.Utf8
import Mathlib.Data.List.Chain

/-! A text cut into plain bytes and numbers. The shape of a text has one zero for each number, so
texts of one shape differ in the digits of their numbers alone. -/
namespace FieldTags

/-- A nonempty run of digits, leading zeros included. -/
structure Numeral where
  digits : Bytes
  nonempty : digits ≠ []
  isDigit : ∀ b ∈ digits, Ascii.isDigit b = true

theorem Ascii.ne_of_isDigit {b c : UInt8} (hb : isDigit b = true) (hc : isDigit c = false) :
    b ≠ c := by
  rintro rfl
  simp [hb] at hc

inductive Piece where
  | plain (b : UInt8) (h : Ascii.isDigit b = false)
  | number (n : Numeral)

namespace Piece

def zero : UInt8 := 0x30

theorem isDigit_zero : Ascii.isDigit zero = true := by decide

def text : Piece → Bytes
  | plain b _ => [b]
  | number n => n.digits

/-- The byte that stands for the piece in the shape of a text. -/
def mark : Piece → UInt8
  | plain b _ => b
  | number _ => zero

theorem text_length_pos (p : Piece) : 0 < p.text.length := by
  cases p with
  | plain b h => simp [text]
  | number n => exact List.length_pos_iff.mpr n.nonempty

theorem eq_of_text {p q : Piece} (h : p.text = q.text) : p = q := by
  cases p with
  | plain b hb =>
    cases q with
    | plain c hc =>
      obtain rfl : b = c := by simpa [text] using h
      rfl
    | number n =>
      have hdigit := n.isDigit b (by rw [← show [b] = n.digits from h]; simp)
      simp [hb] at hdigit
  | number n =>
    cases q with
    | plain c hc =>
      have hdigit := n.isDigit c (by rw [show n.digits = [c] from h]; simp)
      simp [hc] at hdigit
    | number m =>
      obtain ⟨d, hd, hdigit⟩ := n
      obtain rfl : d = m.digits := h
      rfl

end Piece

abbrev Pieces := List Piece

namespace Pieces

def text (ps : Pieces) : Bytes := ps.flatMap Piece.text

def shape (ps : Pieces) : Bytes := ps.map Piece.mark

/-- Where the piece of index `k` begins in the text. Beyond the end it counts on. -/
def offset : Pieces → Nat → Nat
  | [], k => k
  | _ :: _, 0 => 0
  | p :: ps, k + 1 => p.text.length + offset ps k

@[simp] theorem text_nil : text [] = [] := rfl

@[simp] theorem text_cons (p : Piece) (ps : Pieces) : text (p :: ps) = p.text ++ text ps := rfl

theorem text_append (ps qs : Pieces) : text (ps ++ qs) = text ps ++ text qs := by
  simp [text]

@[simp] theorem shape_nil : shape [] = [] := rfl

@[simp] theorem shape_cons (p : Piece) (ps : Pieces) : shape (p :: ps) = p.mark :: shape ps := rfl

theorem shape_drop (ps : Pieces) (k : Nat) : shape (ps.drop k) = (shape ps).drop k := by
  simp [shape]

theorem shape_take (ps : Pieces) (k : Nat) : shape (ps.take k) = (shape ps).take k := by
  simp [shape]

@[simp] theorem length_shape (ps : Pieces) : (shape ps).length = ps.length := by
  simp [shape]

@[simp] theorem offset_zero (ps : Pieces) : offset ps 0 = 0 := by
  cases ps <;> rfl

@[simp] theorem offset_nil (k : Nat) : offset [] k = k := by
  cases k <;> rfl

@[simp] theorem offset_cons_succ (p : Piece) (ps : Pieces) (k : Nat) :
    offset (p :: ps) (k + 1) = p.text.length + offset ps k := rfl

theorem offset_add (ps : Pieces) (j k : Nat) :
    offset ps (j + k) = offset ps j + offset (ps.drop j) k := by
  induction j generalizing ps with
  | zero => simp
  | succ j ih =>
    cases ps with
    | nil => simp
    | cons p ps =>
      have h := ih ps
      rw [Nat.succ_add_eq_add_succ]
      simp only [Nat.add_succ, offset_cons_succ, List.drop_succ_cons]
      omega

theorem offset_pos (ps : Pieces) {k : Nat} (h : 0 < k) : 0 < offset ps k := by
  cases ps with
  | nil => simpa using h
  | cons p ps =>
    obtain ⟨j, rfl⟩ : ∃ j, k = j + 1 := ⟨k - 1, by omega⟩
    have hp := p.text_length_pos
    simp only [offset_cons_succ]
    omega

theorem offset_lt (ps : Pieces) {j k : Nat} (h : j < k) : offset ps j < offset ps k := by
  have hp : 0 < offset (ps.drop j) (k - j) := offset_pos _ (by omega)
  have hk := offset_add ps j (k - j)
  rw [Nat.add_sub_cancel' (Nat.le_of_lt h)] at hk
  omega

theorem offset_le (ps : Pieces) {j k : Nat} (h : j ≤ k) : offset ps j ≤ offset ps k := by
  rcases Nat.lt_or_eq_of_le h with hlt | rfl
  · exact Nat.le_of_lt (offset_lt ps hlt)
  · exact Nat.le_refl _

@[simp] theorem offset_lt_iff {ps : Pieces} {j k : Nat} : offset ps j < offset ps k ↔ j < k := by
  constructor
  · intro h
    by_cases hk : k ≤ j
    · have := offset_le ps hk
      omega
    · omega
  · exact offset_lt ps

@[simp] theorem offset_le_iff {ps : Pieces} {j k : Nat} : offset ps j ≤ offset ps k ↔ j ≤ k := by
  rw [← Nat.not_lt, offset_lt_iff, Nat.not_lt]

theorem offset_inj {ps : Pieces} {j k : Nat} (h : offset ps j = offset ps k) : j = k :=
  Nat.le_antisymm (offset_le_iff.mp (Nat.le_of_eq h)) (offset_le_iff.mp (Nat.le_of_eq h.symm))

@[simp] theorem offset_pos_iff {ps : Pieces} {k : Nat} : 0 < offset ps k ↔ 0 < k := by
  rw [← offset_zero ps, offset_lt_iff, offset_zero]

theorem drop_offset (ps : Pieces) (k : Nat) : (text ps).drop (offset ps k) = text (ps.drop k) := by
  induction k generalizing ps with
  | zero => simp
  | succ k ih =>
    cases ps with
    | nil => simp
    | cons p ps => simp [List.drop_append, ih]

theorem take_offset (ps : Pieces) (k : Nat) : (text ps).take (offset ps k) = text (ps.take k) := by
  induction k generalizing ps with
  | zero => simp
  | succ k ih =>
    cases ps with
    | nil => simp
    | cons p ps => simp [List.take_append, List.take_of_length_le, ih]

theorem length_text (ps : Pieces) : (text ps).length = offset ps ps.length := by
  induction ps with
  | nil => rfl
  | cons p ps ih => simp [ih]

theorem offset_take (ps : Pieces) {i j : Nat} (h : i ≤ j) : offset (ps.take j) i = offset ps i := by
  induction i generalizing ps j with
  | zero => simp
  | succ i ih =>
    cases ps with
    | nil => simp
    | cons p ps =>
      obtain ⟨k, rfl⟩ : ∃ k, j = k + 1 := ⟨j - 1, by omega⟩
      have hi : i ≤ k := by omega
      simp [ih ps hi]

theorem offset_append_left {ps qs : Pieces} {k : Nat} (h : k ≤ ps.length) :
    offset (ps ++ qs) k = offset ps k := by
  have ht := offset_take (ps ++ qs) h
  rwa [List.take_left, eq_comm] at ht

def between (ps : Pieces) (i j : Nat) : Pieces := (ps.take j).drop i

theorem shape_between (ps : Pieces) (i j : Nat) :
    shape (ps.between i j) = (shape ps).between i j := by
  simp [between, Bytes.between, shape_drop, shape_take]

theorem between_offset (ps : Pieces) (i j : Nat) :
    (text ps).between (offset ps i) (offset ps j) = text (ps.between i j) := by
  unfold between Bytes.between
  rw [take_offset]
  by_cases h : i ≤ j
  · rw [← offset_take ps h, drop_offset]
  · have hl : (text (ps.take j)).length ≤ offset ps i := by
      have hji : j ≤ i := by omega
      rw [← take_offset, List.length_take]
      exact Nat.le_trans (Nat.min_le_left _ _) (offset_le_iff.mpr hji)
    have hp : (ps.take j).length ≤ i := by
      rw [List.length_take]
      omega
    rw [List.drop_eq_nil_of_le hl, List.drop_eq_nil_of_le hp]
    rfl

theorem getElem?_offset {ps : Pieces} {k : Nat} {c : UInt8} (hc : Ascii.isDigit c = false) :
    (text ps)[offset ps k]? = some c ↔ (shape ps)[k]? = some c := by
  have hd : ∀ t : Bytes, ∀ n : Nat, t[n]? = (t.drop n).head? := by
    intro t n
    simp [List.head?_drop]
  rw [hd, hd, drop_offset, ← shape_drop]
  generalize ps.drop k = qs
  cases qs with
  | nil => simp
  | cons q qs =>
    cases q with
    | plain b h => simp [Piece.text, Piece.mark]
    | number n =>
      have hz : Piece.zero ≠ c := Ascii.ne_of_isDigit Piece.isDigit_zero hc
      obtain ⟨b, ds, hb⟩ := List.exists_cons_of_ne_nil n.nonempty
      have hbc : b ≠ c := Ascii.ne_of_isDigit (n.isDigit b (by simp [hb])) hc
      simp [Piece.text, Piece.mark, hb, hbc, hz]

theorem exists_offset_of_getElem? {ps : Pieces} {i : Nat} {c : UInt8}
    (hc : Ascii.isDigit c = false) (h : (text ps)[i]? = some c) : ∃ k, i = offset ps k := by
  induction ps generalizing i with
  | nil => simp at h
  | cons p ps ih =>
    by_cases hi : i < p.text.length
    · rw [text_cons, List.getElem?_append_left hi] at h
      cases p with
      | plain b hb =>
        have h0 : i = 0 := by simpa [Piece.text] using hi
        exact ⟨0, by simp [h0]⟩
      | number n =>
        have hm : c ∈ n.digits := List.mem_of_getElem? h
        have := n.isDigit c hm
        simp [this] at hc
    · rw [text_cons, List.getElem?_append_right (by omega)] at h
      obtain ⟨k, hk⟩ := ih h
      exact ⟨k + 1, by simp only [offset_cons_succ]; omega⟩

theorem exists_of_shape {ps : Pieces} {k : Nat} {b : UInt8} (h : (shape ps)[k]? = some b) :
    ∃ p, ps[k]? = some p ∧ p.mark = b := by
  rw [shape, List.getElem?_map] at h
  exact Option.map_eq_some_iff.mp h

theorem offset_succ {ps : Pieces} {k : Nat} {p : Piece} (h : ps[k]? = some p) :
    offset ps (k + 1) = offset ps k + p.text.length := by
  obtain ⟨hlt, rfl⟩ := List.getElem?_eq_some_iff.mp h
  rw [offset_add, List.drop_eq_getElem_cons hlt, offset_cons_succ, offset_zero, Nat.add_zero]

theorem offset_succ_of_getElem? {ps : Pieces} {k : Nat} {c : UInt8}
    (hc : Ascii.isDigit c = false) (h : (shape ps)[k]? = some c) :
    offset ps (k + 1) = offset ps k + 1 := by
  obtain ⟨p, hp, rfl⟩ := exists_of_shape h
  rw [offset_succ hp]
  cases p with
  | plain b hb => rfl
  | number n =>
    rw [Piece.mark, Piece.isDigit_zero] at hc
    simp at hc

/-! Every text has its pieces: its maximal runs of digits are the numbers. -/

def consDigit (b : UInt8) (h : Ascii.isDigit b = true) : Pieces → Pieces
  | .number n :: ps =>
    .number ⟨b :: n.digits, by simp, by simpa [h] using n.isDigit⟩ :: ps
  | ps => .number ⟨[b], by simp, by simpa using h⟩ :: ps

def ofText : Bytes → Pieces
  | [] => []
  | b :: t =>
    if h : Ascii.isDigit b = true then consDigit b h (ofText t)
    else .plain b (by simpa using h) :: ofText t

theorem text_consDigit (b : UInt8) (h : Ascii.isDigit b = true) (ps : Pieces) :
    text (consDigit b h ps) = b :: text ps := by
  cases ps with
  | nil => rfl
  | cons p ps => cases p <;> rfl

@[simp] theorem text_ofText (t : Bytes) : text (ofText t) = t := by
  induction t with
  | nil => rfl
  | cons b t ih =>
    by_cases h : Ascii.isDigit b = true
    · simp [ofText, h, text_consDigit, ih]
    · simp [ofText, h, Piece.text, ih]

/-- No two neighbouring bytes are digits. -/
def Separated (t : Bytes) : Prop :=
  t.IsChain fun b c => Ascii.isDigit b = true → Ascii.isDigit c = false

theorem Separated.between {t : Bytes} (h : Separated t) (i j : Nat) : Separated (t.between i j) :=
  (h.take j).drop i

theorem separated_consDigit (b : UInt8) (h : Ascii.isDigit b = true) {ps : Pieces}
    (hs : Separated (shape ps)) : Separated (shape (consDigit b h ps)) := by
  cases ps with
  | nil => exact List.IsChain.singleton _
  | cons p ps =>
    cases p with
    | plain c hc => exact List.IsChain.cons_cons (fun _ => hc) hs
    | number n => exact hs

theorem separated_ofText (t : Bytes) : Separated (shape (ofText t)) := by
  induction t with
  | nil => exact List.IsChain.nil
  | cons b t ih =>
    by_cases h : Ascii.isDigit b = true
    · simpa [ofText, h] using separated_consDigit b h ih
    · rw [ofText, dif_neg h]
      exact ih.cons fun c _ hb => absurd hb (by simpa [Piece.mark] using h)

theorem ofText_digits {d : Bytes} (hne : d ≠ []) (hd : ∀ b ∈ d, Ascii.isDigit b = true)
    {t : Bytes} (ht : ∀ n ps, ofText t ≠ .number n :: ps) :
    ofText (d ++ t) = .number ⟨d, hne, hd⟩ :: ofText t := by
  induction d with
  | nil => exact absurd rfl hne
  | cons b d ih =>
    have hb := hd b (by simp)
    rw [List.cons_append, ofText, dif_pos hb]
    cases d with
    | nil =>
      cases hps : ofText t with
      | nil => simp [consDigit, hps]
      | cons p ps =>
        cases p with
        | plain c hc => simp [consDigit, hps]
        | number n => exact absurd hps (ht n ps)
    | cons c d => rw [ih (by simp) fun x hx => hd x (by simp [hx]), consDigit]

/-- Every text is that of pieces whose numbers do not touch. -/
theorem exists_separated (t : Bytes) : ∃ ps, text ps = t ∧ Separated (shape ps) :=
  ⟨ofText t, text_ofText t, separated_ofText t⟩

theorem ofText_text {ps : Pieces} (hs : Separated (shape ps)) : ofText (text ps) = ps := by
  induction ps with
  | nil => rfl
  | cons p ps ih =>
    have ih := ih hs.tail
    cases p with
    | plain b h => simp [Piece.text, ofText, h, ih]
    | number n =>
      have hfirst : ∀ m qs, ofText (text ps) ≠ .number m :: qs := by
        intro m qs hm
        rw [ih] at hm
        rw [hm] at hs
        have hno := (List.isChain_cons_cons.mp hs).1 Piece.isDigit_zero
        simp [Piece.mark, Piece.isDigit_zero] at hno
      rw [text_cons, Piece.text, ofText_digits n.nonempty n.isDigit hfirst, ih]

theorem eq_of_text {ps qs : Pieces} (hps : Separated (shape ps)) (hqs : Separated (shape qs))
    (h : text ps = text qs) : ps = qs := by
  rw [← ofText_text hps, h, ofText_text hqs]

theorem between_one {ps : Pieces} {k : Nat} {p : Piece} (h : ps[k]? = some p) :
    ps.between k (k + 1) = [p] := by
  obtain ⟨hlt, rfl⟩ := List.getElem?_eq_some_iff.mp h
  rw [between, List.take_succ_eq_append_getElem hlt, List.drop_left' (by simp; omega)]

end Pieces
end FieldTags
