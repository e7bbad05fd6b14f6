import FieldTags.Proofs.Document.OldTags
import FieldTags.Proofs.Document.Standing
import FieldTags.Proofs.Field.Place
import FieldTags.Proofs.Shape.Spelling

/-! One body, renumbered. Its tags are whole numbers of the text that stand apart, and the fields are
found again with the numbers 1, 2, 3, ... and nothing else changed. A tag stands behind the label, the
type and the name of its own field and outside of all other fields, so no new number touches those. -/
namespace FieldTags

theorem Ascii.value_append (s : Bytes) (b : UInt8) :
    value (s ++ [b]) = 10 * value s + (b.toNat - 0x30) := by
  simp [value]

theorem Ascii.value_decimal (n : Nat) : value (decimal n) = n := by
  have hone : ∀ d < 10, value [d.digitChar.toUInt8] = d := by decide
  have hdigit : ∀ d < 10, d.digitChar.toUInt8.toNat - 0x30 = d := by decide
  induction n using Nat.strongRecOn with
  | ind n ih =>
    by_cases hn : n < 10
    · rw [decimal, Nat.toDigits_of_lt_base hn]
      exact hone n hn
    · rw [decimal_of_le (by omega), value_append, ih (n / 10) (by omega),
        hdigit _ (Nat.mod_lt n (by decide))]
      exact Nat.div_add_mod n 10

namespace Field
variable {body : Bytes} {f g : Field}

theorem apart (hf : f ∈ fields body) (hg : g ∈ fields body) :
    f = g ∨ f.stop ≤ g.start ∨ g.stop ≤ f.start := by
  have hpairs := List.pairwise_iff_getElem.mp (pairwise_fields body)
  obtain ⟨i, hi, rfl⟩ := List.mem_iff_getElem.mp hf
  obtain ⟨j, hj, rfl⟩ := List.mem_iff_getElem.mp hg
  rcases Nat.lt_trichotomy i j with hlt | rfl | hgt
  · exact .inr (.inl (hpairs i j hi hj hlt))
  · exact .inl rfl
  · exact .inr (.inr (hpairs j i hj hi hgt))

theorem tagStart_ne (hf : f ∈ fields body) (hg : g ∈ fields body) {k : Nat}
    (hlow : g.start ≤ k) (hhigh : k < g.tagStart) : f.tagStart ≠ k := by
  obtain ⟨-, hlt, hend, -⟩ := tag_of_mem hf
  obtain ⟨-, hlt', hend', -⟩ := tag_of_mem hg
  have hstart : f.start ≤ f.tagStart := Nat.le_add_right _ _
  rcases apart hf hg with rfl | hbefore | hbehind <;> omega

theorem tag_eq_between (hf : f ∈ fields body) :
    f.declaration.tag = body.between f.tagStart f.tagStop := by
  have htag := (tag_of_mem hf).1
  have hprefix := List.prefix_iff_eq_take.mp (List.takeWhile_prefix (l := body.drop f.tagStart)
    Ascii.isDigit)
  rw [← htag] at hprefix
  rw [Bytes.between, tagStop, List.drop_take, Nat.add_sub_cancel_left]
  exact hprefix

theorem isNumber_tag (hf : f ∈ fields body) : f.declaration.tag.IsNumber := by
  obtain ⟨htag, hlt, -, -⟩ := tag_of_mem hf
  refine ⟨?_, ?_⟩
  · rintro hempty
    rw [tagStop, hempty] at hlt
    simp at hlt
  · rw [htag]
    exact List.all_eq_true.mp List.all_takeWhile

theorem tagStop_le (hf : f ∈ fields body) : f.tagStop ≤ body.length := by
  obtain ⟨-, -, hend, hsemi⟩ := tag_of_mem hf
  have hlen := (List.getElem?_eq_some_iff.mp hsemi).1
  omega

theorem pairwise_tags (body : Bytes) :
    (fields body).Pairwise fun f g => f.tagStop < g.tagStart := by
  refine (pairwise_fields body).imp_of_mem fun {f g} hf hg h => ?_
  obtain ⟨-, -, hend, -⟩ := tag_of_mem hf
  have hstart : g.start ≤ g.tagStart := Nat.le_add_right _ _
  omega

def words (f : Field) : Option Bytes × Bytes × Bytes :=
  (f.declaration.label, f.declaration.type, f.declaration.name)

end Field

namespace Pieces
variable {ps : Pieces}

def renumbered (ps : Pieces) : Pieces := overwrite (retag (fields (shape ps))) ps

@[simp] theorem shape_renumbered (ps : Pieces) : shape (renumbered ps) = shape ps :=
  shape_overwrite _ ps

theorem text_renumbered (hs : Separated (shape ps)) : text (renumbered ps) = renumberBody (text ps) :=
  (renumberBody_text hs).symm

theorem renumbered_renumbered (ps : Pieces) : renumbered (renumbered ps) = renumbered ps := by
  rw [renumbered, shape_renumbered, renumbered]
  exact overwrite_covered (fun e he => (mem_retag he).2) (fun e he => ⟨e, he, rfl⟩) ps

theorem words_renumbered (ps : Pieces) :
    (fields (text (renumbered ps))).map Field.words = (fields (text ps)).map Field.words := by
  have htwins := fields_twins (shape_renumbered ps)
  refine map_eq_of_forall₂ (htwins.imp fun f e => ?_)
  rintro ⟨g, hg⟩
  have hsame : ∀ k, g.start ≤ k → k < g.tagStart → (renumbered ps)[k]? = ps[k]? := by
    intro k hlow hhigh
    refine getElem?_overwrite_of_ne fun e he => ?_
    obtain ⟨⟨h, hh, hstart, -⟩, -⟩ := mem_retag he
    rw [hstart]
    exact Field.tagStart_ne hh hg.mem hlow hhigh
  have htype := hg.type_eq fun k hk =>
    hsame k (Field.inType_bounds hg.mem hk).1 (Field.inType_bounds hg.mem hk).2
  have hname := hg.name_eq fun k hk =>
    hsame k (Nat.le_of_lt (Field.inName_bounds hg.mem hk).1) (Field.inName_bounds hg.mem hk).2
  rw [Field.words, Field.words, hg.label_eq, htype, hname]

theorem tagsOf_renumbered (hs : Separated (shape ps)) :
    tagsOf (text (renumbered ps)) = numbered (fields (text ps)).length := by
  have hwritten : ∀ g ∈ fields (shape ps),
      text ((renumbered ps).between g.tagStart g.tagStop) =
        written (retag (fields (shape ps))) g.tagStart := by
    intro g hg
    obtain ⟨e, he, hstart, -⟩ := exists_mem_retag hg
    rw [(hs.tagStop hg).1, ← hstart]
    exact text_between_overwrite (retags_fields hs) he
  have hagreed := agreed_iff_written.mp (ascending_retag (shape ps)).agreed
  rw [tagsOf_text, shape_renumbered, List.map_congr_left hwritten,
    ← retagFrom_map_start (written (retag (fields (shape ps)))) 1, ← retag,
    List.map_congr_left hagreed, retag, retagFrom_map_text, numbered, (fields_text ps).length_eq]

end Pieces

open Pieces

theorem numbers_of_tagsOf {body : Bytes} {n : Nat} (h : tagsOf body = numbered n) (hn : n < 2 ^ 32) :
    (fields body).map Field.number? = (List.range' 1 n).map some := by
  have hread : (fields body).map Field.number? = (tagsOf body).map fun tag =>
      if Ascii.value tag < 0x100000000 then some (Ascii.value tag) else none := by
    rw [tagsOf, List.map_map]
    rfl
  rw [hread, h, numbered, List.map_map]
  refine List.map_congr_left fun k hk => ?_
  have hk : k < 0x100000000 := by
    have := (List.mem_range'_1.mp hk).2
    omega
  rw [Function.comp_apply, Ascii.value_decimal, if_pos hk]

/-- Renumbering a body writes the numbers 1, 2, 3, ... over the tags of its fields, and these are then
the tags of its fields. Labels, types and names stay, and to renumber once more changes nothing. -/
theorem renumberBody_numbered (body : Bytes) :
    (∀ f ∈ fields body, f.declaration.tag.IsNumber ∧ f.tagStart < f.tagStop ∧
      f.tagStop ≤ body.length ∧ f.declaration.tag = body.between f.tagStart f.tagStop) ∧
    (fields body).Pairwise (fun f g => f.tagStop < g.tagStart) ∧
    renumberBody body = Edit.substitute ((fields body).mapIdx fun i f =>
      ⟨f.tagStart, f.tagStop, Ascii.decimal (i + 1)⟩) body ∧
    (fields (renumberBody body)).map Field.words = (fields body).map Field.words ∧
    tagsOf (renumberBody body) = numbered (fields body).length ∧
    ((fields body).length < 2 ^ 29 →
      (fields (renumberBody body)).map Field.number? =
        (List.range' 1 (fields body).length).map some) ∧
    renumberBody (renumberBody body) = renumberBody body := by
  obtain ⟨ps, rfl, hs⟩ := exists_separated body
  have htags := tagsOf_renumbered hs
  have hwords := words_renumbered ps
  have hs' : Separated (shape (renumbered ps)) := by rwa [shape_renumbered]
  have hagain := text_renumbered hs'
  rw [renumbered_renumbered] at hagain
  rw [text_renumbered hs] at htags hwords hagain
  refine ⟨fun f hf => ⟨Field.isNumber_tag hf, (Field.tag_of_mem hf).2.1, Field.tagStop_le hf,
    Field.tag_eq_between hf⟩, Field.pairwise_tags _, ?_, hwords, htags, fun hcount => ?_,
    hagain.symm⟩
  · rw [← retag_eq_mapIdx, renumberBody_eq_substitute]
  · exact numbers_of_tagsOf htags (by omega)

end FieldTags
