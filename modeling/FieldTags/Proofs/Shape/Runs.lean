import FieldTags.Proofs.Text.Characters
import FieldTags.Proofs.Text.Pieces

/-! Reading a text by its shape. A run of a class that does not tell digits apart ends at the same
piece, whatever numbers the text has. -/
namespace FieldTags
namespace Pieces
open Utf8 Bytes

theorem isDigit_iff {b : UInt8} :
    Ascii.isDigit b = true ↔ 0x30 ≤ b.toNat ∧ b.toNat ≤ 0x39 := by
  simp [Ascii.isDigit, UInt8.le_iff_toNat_le]

theorem ascii_of_isDigit {b : UInt8} (h : Ascii.isDigit b = true) : b < 0x80 := by
  rw [UInt8.lt_iff_toNat_lt]
  exact Nat.lt_of_le_of_lt (isDigit_iff.mp h).2 (by decide)

/-- Classes of bytes that hold of all digits or of none. -/
def Blind (p : UInt8 → Bool) : Prop := ∀ b, Ascii.isDigit b = true → p b = p Piece.zero

theorem takeWhile_digits {p : UInt8 → Bool} (hp : Blind p) {d : Bytes}
    (hd : ∀ b ∈ d, Ascii.isDigit b = true) (t : Bytes) :
    (d ++ t).takeWhile p =
      if p Piece.zero then d ++ t.takeWhile p else if d = [] then t.takeWhile p else [] := by
  induction d with
  | nil => simp
  | cons b d ih =>
    have hb := hp b (hd b (by simp))
    have ih := ih fun c hc => hd c (by simp [hc])
    rw [List.cons_append, List.takeWhile_cons, hb, ih]
    cases hz : p Piece.zero <;> simp

theorem length_takeWhile_text {p : UInt8 → Bool} (hp : Blind p) (ps : Pieces) :
    ((text ps).takeWhile p).length = offset ps ((shape ps).takeWhile p).length := by
  induction ps with
  | nil => rfl
  | cons q ps ih =>
    cases q with
    | plain b h =>
      cases hb : p b with
      | false => simp [Piece.text, Piece.mark, hb]
      | true =>
        simp only [text_cons, shape_cons, Piece.text, Piece.mark, List.singleton_append,
          List.takeWhile_cons, hb, if_true, List.length_cons, offset_cons_succ, ih]
        exact Nat.add_comm _ _
    | number n =>
      rw [text_cons, shape_cons, Piece.text, Piece.mark, takeWhile_digits hp n.isDigit]
      cases hz : p Piece.zero with
      | false => simp [hz, n.nonempty]
      | true => simp [hz, ih, Piece.text]

theorem takeWhile_isContinuation_text (ps : Pieces) :
    (text ps).takeWhile isContinuation = (shape ps).takeWhile isContinuation := by
  have hc : ∀ b, Ascii.isDigit b = true → isContinuation b = false := fun b hb =>
    not_isContinuation_of_ascii (ascii_of_isDigit hb)
  induction ps with
  | nil => rfl
  | cons q ps ih =>
    cases q with
    | plain b h => simp [Piece.text, Piece.mark, List.takeWhile_cons, ih]
    | number n =>
      obtain ⟨b, d, hb⟩ := List.exists_cons_of_ne_nil n.nonempty
      have hdig := hc b (n.isDigit b (by simp [hb]))
      simp [Piece.text, Piece.mark, hb, hdig, hc _ Piece.isDigit_zero]

theorem front?_text (b : UInt8) (ps : Pieces) :
    front? (b :: text ps) = front? (b :: shape ps) := by
  rw [front?_takeWhile, takeWhile_isContinuation_text, ← front?_takeWhile]

/-- Classes of characters that hold of all digits or of none. -/
def BlindChars (p : Char → Bool) : Prop := Blind (holdsOf p)

variable {p : Char → Bool}

theorem runAfter_digits (hp : BlindChars p) {d : Bytes}
    (hd : ∀ b ∈ d, Ascii.isDigit b = true) (t : Bytes) :
    runAfter p 0 (d ++ t) =
      if holdsOf p Piece.zero then d.length + runAfter p 0 t
      else if d = [] then runAfter p 0 t else 0 := by
  induction d with
  | nil => simp
  | cons b d ih =>
    have hb := hd b (by simp)
    have ih := ih fun c hc => hd c (by simp [hc])
    rw [List.cons_append, runAfter_zero_ascii (ascii_of_isDigit hb), hp b hb, ih]
    cases hz : holdsOf p Piece.zero with
    | false => simp
    | true =>
      simp only [if_true, List.length_cons]
      omega

theorem runAfter_text (hp : BlindChars p) {skip : Nat} {ps : Pieces}
    (hs : skip ≤ trailing (shape ps)) :
    runAfter p skip (text ps) = offset ps (runAfter p skip (shape ps)) := by
  induction ps generalizing skip with
  | nil => cases skip <;> rfl
  | cons q ps ih =>
    cases q with
    | plain b h =>
      simp only [text_cons, shape_cons, Piece.text, Piece.mark, List.singleton_append]
      cases skip with
      | succ skip =>
        rw [runAfter, runAfter, ih (succ_le_trailing_cons.mp hs).2,
          Nat.add_comm 1 (runAfter p skip (shape ps)), offset_cons_succ]
        rfl
      | zero =>
        have hf := front?_text b ps
        cases hcw : front? (b :: shape ps) with
        | none => simp [runAfter, hf, hcw]
        | some cw =>
          obtain ⟨c, w⟩ := cw
          have hw := width_le hcw
          simp only [runAfter, hf, hcw, ih hw.2]
          cases hc : p c with
          | false => simp
          | true =>
            rw [if_pos rfl, if_pos rfl, Nat.add_comm 1 (runAfter p (w - 1) (shape ps)),
              offset_cons_succ]
            rfl
    | number n =>
      have hz := ascii_of_isDigit Piece.isDigit_zero
      rw [shape_cons, Piece.mark] at hs ⊢
      rw [trailing_cons_of_ascii hz] at hs
      have h0 : skip = 0 := by omega
      subst h0
      rw [text_cons, Piece.text, runAfter_digits hp n.isDigit, runAfter_zero_ascii hz,
        ih (Nat.zero_le _)]
      cases holdsOf p Piece.zero with
      | false => simp [n.nonempty]
      | true => simp [Nat.add_comm 1, Piece.text]

theorem run_text (hp : BlindChars p) (ps : Pieces) :
    Bytes.run p (text ps) = offset ps (Bytes.run p (shape ps)) :=
  runAfter_text hp (Nat.zero_le _)

theorem marksAfter_digits (hp : BlindChars p) {d : Bytes} (hne : d ≠ [])
    (hd : ∀ b ∈ d, Ascii.isDigit b = true) (current : Bool) (t : Bytes) :
    marksAfter p 0 current (d ++ t) =
      List.replicate d.length (holdsOf p Piece.zero) ++
        marksAfter p 0 (holdsOf p Piece.zero) t := by
  induction d generalizing current with
  | nil => simp at hne
  | cons b d ih =>
    have hb := hd b (by simp)
    rw [List.cons_append, marksAfter_zero_ascii (ascii_of_isDigit hb), hp b hb]
    by_cases hnil : d = []
    · simp [hnil]
    · simp [ih hnil fun c hc => hd c (by simp [hc]), List.replicate_succ]

theorem marksAfter_text (hp : BlindChars p) {skip : Nat} {ps : Pieces} (before current : Bool)
    (hs : skip ≤ trailing (shape ps)) (k : Nat) :
    (before :: marksAfter p skip current (text ps))[offset ps k]? =
      (before :: marksAfter p skip current (shape ps))[k]? := by
  induction ps generalizing skip before current k with
  | nil => simp
  | cons q ps ih =>
    cases k with
    | zero => simp
    | succ k =>
      rw [offset_cons_succ]
      cases q with
      | plain b h =>
        simp only [text_cons, shape_cons, Piece.text, Piece.mark, List.singleton_append,
          List.length_singleton, Nat.add_comm 1 (offset ps k), List.getElem?_cons_succ]
        cases skip with
        | succ skip =>
          exact ih current current (succ_le_trailing_cons.mp hs).2 k
        | zero =>
          have hf := front?_text b ps
          cases hcw : front? (b :: shape ps) with
          | none =>
            simp only [marksAfter, hf, hcw]
            exact ih false false (Nat.zero_le _) k
          | some cw =>
            obtain ⟨c, w⟩ := cw
            simp only [marksAfter, hf, hcw]
            exact ih (p c) (p c) (width_le hcw).2 k
      | number n =>
        have hz := ascii_of_isDigit Piece.isDigit_zero
        rw [shape_cons, Piece.mark] at hs ⊢
        rw [trailing_cons_of_ascii hz] at hs
        have h0 : skip = 0 := by omega
        subst h0
        have ih := ih (holdsOf p Piece.zero) (holdsOf p Piece.zero) (Nat.zero_le _) k
        obtain ⟨m, hm⟩ : ∃ m, n.digits.length = m + 1 :=
          ⟨n.digits.length - 1, by have := List.length_pos_iff.mpr n.nonempty; omega⟩
        rw [text_cons, Piece.text, marksAfter_digits hp n.nonempty n.isDigit,
          marksAfter_zero_ascii hz, List.getElem?_cons_succ, ← ih, hm]
        have hrep : before :: (List.replicate (m + 1) (holdsOf p Piece.zero) ++
            marksAfter p 0 (holdsOf p Piece.zero) (text ps)) =
            (before :: List.replicate m (holdsOf p Piece.zero)) ++
              (holdsOf p Piece.zero :: marksAfter p 0 (holdsOf p Piece.zero) (text ps)) := by
          simp [List.replicate_succ']
        rw [hrep, List.getElem?_append_right (by simp)]
        congr 1
        simp

theorem blindChars_isWord : BlindChars isWord := by
  intro b hb
  have hr := isDigit_iff.mp hb
  obtain ⟨n, hn⟩ : ∃ n, b.toNat = n := ⟨_, rfl⟩
  rw [hn] at hr
  have hd : ∀ n, n ≤ 0x39 → 0x30 ≤ n → isWord (Char.ofNat n) = isWord (Char.ofNat 0x30) := by
    decide
  rw [holdsOf, hn]
  exact hd n hr.2 hr.1

theorem wordMayStart_text (ps : Pieces) (k : Nat) :
    (text ps).wordMayStart[offset ps k]? = (shape ps).wordMayStart[k]? := by
  have h := marksAfter_text blindChars_isWord false false (Nat.zero_le (trailing (shape ps))) k
  have hw : ∀ t : Bytes, t.wordMayStart = (false :: marksAfter isWord 0 false t).map (! ·) := by
    intro t
    rfl
  rw [hw, hw, List.getElem?_map, List.getElem?_map, h]

/-- A word without digits begins the text exactly if it begins the shape. -/
theorem isPrefixOf_text {w : Bytes} (hw : ∀ b ∈ w, Ascii.isDigit b = false) (ps : Pieces) :
    w.isPrefixOf (text ps) = w.isPrefixOf (shape ps) := by
  induction w generalizing ps with
  | nil => rfl
  | cons b w ih =>
    have hb := hw b (by simp)
    cases ps with
    | nil => rfl
    | cons q ps =>
      cases q with
      | plain c h =>
        simp [Piece.text, Piece.mark, List.isPrefixOf, ih fun x hx => hw x (by simp [hx])]
      | number n =>
        obtain ⟨c, d, hc⟩ := List.exists_cons_of_ne_nil n.nonempty
        have hcd := n.isDigit c (by simp [hc])
        have hbc : (b == c) = false := beq_eq_false_iff_ne.mpr (Ascii.ne_of_isDigit hcd hb).symm
        have hbz : (b == Piece.zero) = false :=
          beq_eq_false_iff_ne.mpr (Ascii.ne_of_isDigit Piece.isDigit_zero hb).symm
        simp [Piece.text, Piece.mark, List.isPrefixOf, hc, hbc, hbz]

theorem offset_of_isPrefixOf {w : Bytes} (hw : ∀ b ∈ w, Ascii.isDigit b = false) {ps : Pieces}
    (h : w.isPrefixOf (shape ps) = true) : offset ps w.length = w.length := by
  induction w generalizing ps with
  | nil => simp
  | cons b w ih =>
    cases ps with
    | nil => simp
    | cons q ps =>
      simp only [shape_cons, List.isPrefixOf, Bool.and_eq_true, beq_iff_eq] at h
      have ih := ih (fun x hx => hw x (by simp [hx])) h.2
      cases q with
      | plain c hc =>
        rw [List.length_cons, offset_cons_succ, ih]
        simp [Piece.text, Nat.add_comm]
      | number n =>
        have hb := hw b (by simp)
        rw [h.1, Piece.mark, Piece.isDigit_zero] at hb
        simp at hb

end Pieces
end FieldTags
