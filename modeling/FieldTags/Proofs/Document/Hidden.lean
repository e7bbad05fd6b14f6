import FieldTags.Proofs.Document.Standing
import FieldTags.Proofs.Lexical.Hidden

/-! What renumbering does to comments and strings. A map type may open one and run on in it, so that
the tag behind it is part of a comment or a string. -/
namespace FieldTags
namespace Pieces

/-- Edits of numbers keep what is hidden exactly if all hidden numbers among them keep their
digits. -/
theorem hidden_overwrite_iff {ps : Pieces} (hs : Separated (shape ps)) {es : List Edit}
    (h : Retags (shape ps) es) :
    hidden (text (overwrite es ps)) = hidden (text ps) ↔
      ∀ e ∈ es, (codeMask (shape ps))[e.start]? = some false →
        text (ps.between e.start e.stop) = written es e.start := by
  have hseparated : ∀ qs, shape qs = shape ps →
      Separated (shape (veiled (codeMask (shape ps)) qs)) := by
    intro qs hqs
    rw [shape, ← veiled_map, ← shape, hqs]
    exact separated_veiled .code hs
  have hlength : ∀ qs, shape qs = shape ps → qs.length = (codeMask (shape ps)).length := by
    intro qs hqs
    rw [length_codeMask, ← hqs, length_shape]
  have hshape := shape_overwrite es ps
  have hpieces : hidden (text (overwrite es ps)) = hidden (text ps) ↔
      veiled (codeMask (shape ps)) (overwrite es ps) = veiled (codeMask (shape ps)) ps := by
    rw [hidden_text, hidden_text, hshape]
    exact ⟨eq_of_text (hseparated _ hshape) (hseparated _ rfl), congrArg text⟩
  rw [hpieces, veiled_eq_iff (hlength _ hshape) (hlength _ rfl)]
  constructor
  · intro hkeep e he hmask
    exact (getElem?_overwrite_eq_iff h he).mp (hkeep e.start hmask)
  · intro hkeep k hmask
    by_cases hk : ∃ e ∈ es, e.start = k
    · obtain ⟨e, he, rfl⟩ := hk
      exact (getElem?_overwrite_eq_iff h he).mpr (hkeep e he hmask)
    · exact getElem?_overwrite_of_ne fun e he hek => hk ⟨e, he, hek⟩

end Pieces

open Pieces in
/-- Renumbering leaves all comments and strings as they are exactly if every claimed tag that is no
code stands as the number that is written there. -/
theorem hidden_renumberDocument_iff {t : Bytes} (hv : Utf8.isValid t = true) :
    hidden (renumberDocument .tracked t).text = hidden t ↔
      ∀ e ∈ claims t, (codeMask t)[e.start]? = some false →
        t.between e.start e.stop = written (claims t) e.start := by
  rw [(renumberDocument_settled (bodiesStart_of_isValid hv)).text]
  obtain ⟨ps, rfl, hs⟩ := exists_separated t
  have hclaims := retags_claims hs
  rw [claims_text, substitute_text hclaims, hidden_overwrite_iff hs hclaims, List.forall_mem_map]
  simp only [Edit.move, codeMask_text, between_offset, written_move]

theorem hidden_renumberDocument_same_tag :
    hidden (renumberDocument .tracked (Ascii.word
      "message M \x7b map<string, /* map<int32, int32> a = 1; */ string> b = 3; \x7d")).text =
    hidden (Ascii.word
      "message M \x7b map<string, /* map<int32, int32> a = 1; */ string> b = 3; \x7d") :=
  (hidden_renumberDocument_iff (by decide +kernel)).mpr (by decide +kernel)

/-- The map type ends in a comment, and the tag that is read behind it stands there too. -/
theorem hidden_renumberDocument_map_over_comment :
    Utf8.isValid (Ascii.word
      "message M \x7b map<string, /* map<int32, int32> a = 7; */ string> b = 3; \x7d") = true ∧
    hidden (renumberDocument .tracked (Ascii.word
      "message M \x7b map<string, /* map<int32, int32> a = 7; */ string> b = 3; \x7d")).text ≠
    hidden (Ascii.word
      "message M \x7b map<string, /* map<int32, int32> a = 7; */ string> b = 3; \x7d") := by
  decide +kernel

end FieldTags
