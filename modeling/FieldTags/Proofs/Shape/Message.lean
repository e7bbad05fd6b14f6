import FieldTags.Proofs.Message.Order
import FieldTags.Proofs.Shape.Lexical

/-! Message heads and blocks of a text stand where those of its shape do. -/
namespace FieldTags

def Block.move (φ : Nat → Nat) (b : Block) : Block := ⟨φ b.lbrace, φ b.rbrace⟩

namespace Pieces
open Utf8 Bytes

theorem blindChars_isBlank : BlindChars isBlank := by
  intro b hb
  obtain ⟨n, hlow, hhigh, rfl⟩ := UInt8.exists_of_isDigit hb
  have hall : ∀ n < 0x3A, 0x30 ≤ n → holdsOf isBlank (UInt8.ofNat n) = false := by decide
  rw [hall n (by omega) hlow]
  rfl

theorem isNameByte_of_isDigit {b : UInt8} (h : Ascii.isDigit b = true) :
    Ascii.isNameByte b = true := by
  simp [Ascii.isNameByte, h]

theorem isNameStart_of_isDigit {b : UInt8} (h : Ascii.isDigit b = true) :
    Ascii.isNameStart b = false := by
  obtain ⟨n, hlow, hhigh, rfl⟩ := UInt8.exists_of_isDigit h
  have hall : ∀ n < 0x3A, 0x30 ≤ n → Ascii.isNameStart (UInt8.ofNat n) = false := by decide
  exact hall n (by omega) hlow

theorem blind_isNameByte : Blind Ascii.isNameByte := by
  intro b hb
  rw [isNameByte_of_isDigit hb]
  rfl

theorem head_nameLength_text (ps : Pieces) :
    Head.nameLength (text ps) = offset ps (Head.nameLength (shape ps)) := by
  cases ps with
  | nil => rfl
  | cons p ps =>
    cases p with
    | plain b hb =>
      change Head.nameLength (b :: text ps) = offset _ (Head.nameLength (b :: shape ps))
      cases hs : Ascii.isNameStart b with
      | true =>
        simp only [Head.nameLength, hs, if_true]
        rw [length_takeWhile_text blind_isNameByte, Nat.add_comm 1 (List.length _),
          offset_cons_succ]
        rfl
      | false => simp [Head.nameLength, hs]
    | number n =>
      obtain ⟨b, t, hbt⟩ := List.exists_cons_of_ne_nil n.nonempty
      have hb := isNameStart_of_isDigit (n.isDigit b (by simp [hbt]))
      have hz := isNameStart_of_isDigit Piece.isDigit_zero
      simp [Piece.text, Piece.mark, hbt, Head.nameLength, hb, hz]

theorem restLength?_text (ps : Pieces) :
    Head.restLength? (text ps) = (Head.restLength? (shape ps)).map (offset ps) := by
  have hgap := run_text blindChars_isBlank ps
  have hname : ∀ k, Head.nameLength ((text ps).drop (offset ps k)) =
      offset (ps.drop k) (Head.nameLength ((shape ps).drop k)) := by
    intro k
    rw [drop_offset, head_nameLength_text, shape_drop]
  have hblank : ∀ k, Bytes.run isBlank ((text ps).drop (offset ps k)) =
      offset (ps.drop k) (Bytes.run isBlank ((shape ps).drop k)) := by
    intro k
    rw [drop_offset, run_text blindChars_isBlank, shape_drop]
  have hbrace : Ascii.isDigit Ascii.leftBrace = false := by decide
  unfold Head.restLength?
  simp only [hgap, hname, ← offset_add, hblank, offset_pos_iff, getElem?_offset hbrace]
  split
  · rename_i h
    rw [Option.map_some, offset_succ_of_getElem? hbrace h.2.2]
  · rfl

theorem isDigit_of_mem_keyword : ∀ b ∈ Head.keyword, Ascii.isDigit b = false := by
  decide +kernel

theorem head_length?_text (ps : Pieces) :
    Head.length? (text ps) = (Head.length? (shape ps)).map (offset ps) := by
  unfold Head.length?
  rw [isPrefixOf_text isDigit_of_mem_keyword]
  split
  · rename_i h
    have hk : offset ps Head.keyword.length = Head.keyword.length :=
      offset_of_isPrefixOf isDigit_of_mem_keyword h
    rw [← hk, drop_offset, restLength?_text, shape_drop, hk, Option.map_map, Option.map_map]
    congr 1
    funext n
    rw [Function.comp_apply, Function.comp_apply, offset_add, hk]
  · rfl

theorem mem_all_text {ps : Pieces} {h : Head} :
    h ∈ Head.all (text ps) ↔
      ∃ g ∈ Head.all (shape ps), h = ⟨offset ps g.start, offset ps g.lbrace⟩ := by
  have hbrace : Ascii.isDigit Ascii.leftBrace = false := by decide
  have hlength : ∀ k, Head.length? ((text ps).drop (offset ps k)) =
      (Head.length? ((shape ps).drop k)).map (offset (ps.drop k)) := by
    intro k
    rw [drop_offset, head_length?_text, shape_drop]
  have hstop : ∀ g ∈ Head.all (shape ps), ∀ n, Head.length? ((shape ps).drop g.start) = some n →
      offset ps g.lbrace = offset ps g.start + offset (ps.drop g.start) n - 1 := by
    intro g hg n hn
    obtain ⟨m, hl, -, hm⟩ := Head.mem_all.mp hg
    rw [hn, Option.some.injEq] at hm
    obtain ⟨s, -, -, hs, hpos, -, -⟩ := Head.exists_of_mem_all hg
    have hsucc := offset_succ_of_getElem? hbrace (Head.getElem?_lbrace hg)
    rw [← offset_add, show g.start + n = g.lbrace + 1 by omega, hsucc, Nat.add_sub_cancel]
  constructor
  · intro hh
    obtain ⟨n, hl, hmay, hn⟩ := Head.mem_all.mp hh
    obtain ⟨s, r, hs, -, -, hstop', hlen⟩ := Head.exists_of_mem_all hh
    obtain ⟨q, rfl, -, -, -⟩ := Head.length?_eq_some_drop hstop' hlen
    have hm : (text ps)[h.start]? = some 0x6D := by
      rw [← Nat.add_zero h.start, ← List.getElem?_drop, hs]
      rfl
    obtain ⟨k, hk⟩ := exists_offset_of_getElem? (by decide) hm
    rw [hk, wordMayStart_text] at hmay
    rw [hk, hlength] at hn
    obtain ⟨m, hmk, hnm⟩ := Option.map_eq_some_iff.mp hn
    have hg : (⟨k, k + m - 1⟩ : Head) ∈ Head.all (shape ps) :=
      Head.mem_all.mpr ⟨m, rfl, hmay, hmk⟩
    refine ⟨_, hg, ?_⟩
    have hlb := hstop _ hg m hmk
    obtain ⟨start, lbrace⟩ := h
    simp only at hk hl hlb ⊢
    rw [hlb, hl, hk, hnm]
  · rintro ⟨g, hg, rfl⟩
    obtain ⟨n, -, hmay, hn⟩ := Head.mem_all.mp hg
    refine Head.mem_all.mpr ⟨offset (ps.drop g.start) n, hstop g hg n hn, ?_, ?_⟩
    · rw [wordMayStart_text]
      exact hmay
    · rw [hlength, hn]
      rfl

/-- A text has its message blocks where its shape has them, whatever its numbers are. -/
theorem messageBlocks_text (ps : Pieces) :
    messageBlocks (text ps) = (messageBlocks (shape ps)).map (Block.move (offset ps)) := by
  have hmoved : ((messageBlocks (shape ps)).map (Block.move (offset ps))).Pairwise
      (·.lbrace < ·.lbrace) := by
    rw [List.pairwise_map]
    exact (pairwise_messageBlocks _).imp fun h => offset_lt ps h
  refine messageBlocks_eq hmoved fun b => ?_
  rw [mem_messageBlocks, List.mem_map]
  constructor
  · rintro ⟨h, hh, hmask, hl, hm⟩
    obtain ⟨g, hg, rfl⟩ := mem_all_text.mp hh
    obtain ⟨j, hj, hr⟩ := matchBrace_text.mp hm
    rw [codeMask_text] at hmask
    refine ⟨⟨g.lbrace, j⟩, mem_messageBlocks.mpr ⟨g, hg, hmask, rfl, hj⟩, ?_⟩
    obtain ⟨lbrace, rbrace⟩ := b
    simp only at hl hr
    rw [hl, hr]
    rfl
  · rintro ⟨c, hc, rfl⟩
    obtain ⟨g, hg, hmask, hl, hm⟩ := mem_messageBlocks.mp hc
    refine ⟨_, mem_all_text.mpr ⟨g, hg, rfl⟩, ?_, ?_, ?_⟩
    · rw [codeMask_text]
      exact hmask
    · exact congrArg (offset ps) hl
    · exact matchBrace_text.mpr ⟨c.rbrace, hm, rfl⟩

end Pieces
end FieldTags
