import FieldTags.Proofs.Shape.Lexical

/-! What the code mask hides of a text: its comments and strings, their delimiters included. -/
namespace FieldTags

/-- The entries that a mask does not show. -/
def veiled {α : Type} : List Bool → List α → List α
  | true :: mask, _ :: xs => veiled mask xs
  | false :: mask, x :: xs => x :: veiled mask xs
  | _, _ => []

/-- The bytes of the comments and strings of a text, one after the other. -/
def hidden (t : Bytes) : Bytes := veiled (codeMask t) t

section
variable {α β : Type}

theorem veiled_map (f : α → β) (mask : List Bool) (xs : List α) :
    veiled mask (xs.map f) = (veiled mask xs).map f := by
  induction mask generalizing xs with
  | nil => rfl
  | cons shown mask ih =>
    cases xs with
    | nil => cases shown <;> rfl
    | cons x xs => cases shown <;> simp [veiled, ih]

theorem veiled_replicate_append (shown : Bool) (mask : List Bool) (xs ys : List α) :
    veiled (List.replicate xs.length shown ++ mask) (xs ++ ys) =
      (if shown then [] else xs) ++ veiled mask ys := by
  induction xs with
  | nil => simp
  | cons x xs ih => cases shown <;> simp_all [veiled, List.replicate_succ]

theorem veiled_eq_iff {mask : List Bool} {xs ys : List α} (hxs : xs.length = mask.length)
    (hys : ys.length = mask.length) :
    veiled mask xs = veiled mask ys ↔ ∀ k : Nat, mask[k]? = some false → xs[k]? = ys[k]? := by
  induction mask generalizing xs ys with
  | nil => simp [veiled]
  | cons shown mask ih =>
    obtain ⟨x, xs, rfl⟩ := List.exists_cons_of_length_eq_add_one hxs
    obtain ⟨y, ys, rfl⟩ := List.exists_cons_of_length_eq_add_one hys
    have ih := ih (Nat.succ_injective hxs) (Nat.succ_injective hys)
    have hsplit : (∀ k : Nat, (shown :: mask)[k]? = some false → (x :: xs)[k]? = (y :: ys)[k]?) ↔
        (shown = false → x = y) ∧ ∀ k : Nat, mask[k]? = some false → xs[k]? = ys[k]? := by
      constructor
      · intro h
        exact ⟨fun hshown => by simpa [hshown] using h 0, fun k => h (k + 1)⟩
      · intro ⟨hzero, hsucc⟩ k
        cases k with
        | zero => simpa using hzero
        | succ k => exact hsucc k
    rw [hsplit, ← ih]
    cases shown <;> simp [veiled]

end

namespace Mode

theorem isCode_next_zero (m : Mode) : (m.next Piece.zero).isCode = m.isCode := by
  cases m with
  | quoted q => cases q <;> decide
  | escaped q => cases q <;> decide
  | _ => decide

end Mode

theorem codeMaskFrom_digits (m : Mode) {d : Bytes} (hne : d ≠ [])
    (hd : ∀ b ∈ d, Ascii.isDigit b = true) (t : Bytes) :
    codeMaskFrom m (d ++ t) =
      List.replicate d.length m.isCode ++ codeMaskFrom (m.next Piece.zero) t := by
  induction d generalizing m with
  | nil => exact absurd rfl hne
  | cons b d ih =>
    have hb := hd b (by simp)
    rw [List.cons_append, codeMaskFrom, Mode.shows_of_isDigit m hb, Mode.next_of_isDigit m hb]
    by_cases hnil : d = []
    · simp [hnil]
    · rw [ih _ hnil fun c hc => hd c (by simp [hc]), Mode.isCode_next_zero,
        Mode.next_zero_next_zero, List.length_cons, List.replicate_succ, List.cons_append]

namespace Pieces

theorem veiled_text (m : Mode) (ps : Pieces) :
    veiled (codeMaskFrom m (text ps)) (text ps) =
      text (veiled (codeMaskFrom m (shape ps)) ps) := by
  induction ps generalizing m with
  | nil => rfl
  | cons p ps ih =>
    cases p with
    | plain b hb =>
      have hshows := shows_text m b ps
      simp only [text_cons, shape_cons, Piece.text, Piece.mark, List.singleton_append, codeMaskFrom,
        hshows]
      cases m.shows b (shape ps).head? <;> simp [veiled, ih, Piece.text]
    | number n =>
      have hshows := Mode.shows_of_isDigit m Piece.isDigit_zero (shape ps).head?
      rw [text_cons, shape_cons, Piece.text, Piece.mark, codeMaskFrom_digits m n.nonempty n.isDigit,
        veiled_replicate_append, ih, codeMaskFrom, hshows]
      cases m.isCode <;> simp [veiled, Piece.text]

theorem hidden_text (ps : Pieces) :
    hidden (text ps) = text (veiled (codeMask (shape ps)) ps) :=
  veiled_text .code ps

theorem separated_veiled (m : Mode) {s : Bytes} (hs : Separated s) :
    Separated (veiled (codeMaskFrom m s) s) := by
  induction s generalizing m with
  | nil => exact List.IsChain.nil
  | cons b s ih =>
    have ih := ih (m.next b) hs.tail
    rw [codeMaskFrom]
    cases hb : m.shows b s.head? with
    | true => exact ih
    | false =>
      refine ih.cons fun c hc hdigit => ?_
      rw [Mode.shows_of_isDigit m hdigit] at hb
      have hnext : (m.next b).isCode = false := by
        rw [Mode.next_of_isDigit m hdigit, Mode.isCode_next_zero, hb]
      cases s with
      | nil => simp [veiled, codeMaskFrom] at hc
      | cons d s =>
        obtain rfl : d = c := by
          simpa [codeMaskFrom, Mode.shows_of_not_isCode hnext, veiled] using hc
        exact (List.isChain_cons_cons.mp hs).1 hdigit

end Pieces
end FieldTags
