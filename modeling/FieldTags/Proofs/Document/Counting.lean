import FieldTags.Document.Pass
import FieldTags.Proofs.Document.Bodies
import Mathlib

/-! Counting the fields of all messages. A place of the text begins a direct field of one message at
most, since a message leaves what lies in the messages inside to these; so there are no more fields
than bytes, and a sum of 64 bits holds their number. -/
namespace FieldTags

theorem sum_map_ofNat (ns : List Nat) : (ns.map UInt64.ofNat).sum = UInt64.ofNat ns.sum := by
  induction ns with
  | nil => rfl
  | cons n ns ih => rw [List.map_cons, List.sum_cons, List.sum_cons, ih, UInt64.ofNat_add]

theorem Outcome.fields_eq_sum (o : Outcome) : o.fields = (o.steps.map Step.fields).sum := by
  rw [fields, List.sum_eq_foldl, List.foldl_map]

theorem toNat_sum (ns : List UInt64) : ns.sum.toNat = (ns.map UInt64.toNat).sum % 2 ^ 64 := by
  induction ns with
  | nil => rfl
  | cons n ns ih =>
    rw [List.map_cons, List.sum_cons, List.sum_cons, UInt64.toNat_add, ih, Nat.add_mod_mod]

def fieldTotal (t : Bytes) : Nat := ((messageBlocks t).map fun b => (fields (bodyOf t b)).length).sum

/-- Where the direct fields of a block begin in the whole text. -/
def fieldStarts (t : Bytes) (b : Block) : List Nat :=
  (fields (bodyOf t b)).map fun f => b.bodyStart + f.start

theorem Field.start_lt_length {body : Bytes} {f : Field} (hf : f ∈ fields body) :
    f.start < f.stop ∧ f.stop ≤ body.length := by
  obtain ⟨-, hlt, hend, hsemi⟩ := tag_of_mem hf
  have hlen := (List.getElem?_eq_some_iff.mp hsemi).1
  have hstart : f.start ≤ f.tagStart := Nat.le_add_right _ _
  omega

section
variable {t : Bytes} {b c : Block}

theorem fieldStarts_inside (hb : b ∈ messageBlocks t) {k : Nat} (hk : k ∈ fieldStarts t b) :
    b.containsOffset k = true := by
  obtain ⟨f, hf, rfl⟩ := List.mem_map.mp hk
  have hin := Field.start_lt_length hf
  rw [length_bodyOf hb] at hin
  rw [Block.containsOffset_iff, Block.bodyStart] at *
  omega

/-- What begins in a nested message is no field of the outer one. -/
theorem fieldStarts_not_nested (hb : b ∈ messageBlocks t) (hc : c ∈ messageBlocks t)
    (hcontains : b.contains c = true) {k : Nat} (hk : k ∈ fieldStarts t b) :
    c.containsOffset k = false := by
  obtain ⟨f, hf, rfl⟩ := List.mem_map.mp hk
  obtain ⟨_, _, henclosed⟩ := exists_enclosed hb
  obtain ⟨d, hd, rfl⟩ := (henclosed.mem_contained_iff hb).mp ⟨hc, hcontains⟩
  have hclear := List.any_eq_false.mp (mem_fieldsFrom hf).2.2.1 d hd
  simpa [Block.containsOffset, Block.shift] using hclear

theorem nodup_fieldStarts (t : Bytes) (b : Block) : (fieldStarts t b).Nodup := by
  refine List.pairwise_map.mpr ((pairwise_fields _).imp_of_mem fun hf _ hle => ?_)
  have hlt := (Field.start_lt_length hf).1
  omega

theorem disjoint_fieldStarts (hb : b ∈ messageBlocks t) (hc : c ∈ messageBlocks t)
    (hlt : b.lbrace < c.lbrace) : (fieldStarts t b).Disjoint (fieldStarts t c) := by
  intro k hkb hkc
  have hin := fieldStarts_inside hc hkc
  rcases nested_or_apart hb hc hlt with hnested | hapart
  · have hcontains : b.contains c = true := by
      simpa [Block.contains] using ⟨hlt, hnested⟩
    exact absurd hin (by simp [fieldStarts_not_nested hb hc hcontains hkb])
  · have hfirst := Block.containsOffset_iff.mp (fieldStarts_inside hb hkb)
    have hsecond := Block.containsOffset_iff.mp hin
    omega

end

theorem nodup_flatMap_fieldStarts (t : Bytes) :
    ((messageBlocks t).flatMap (fieldStarts t)).Nodup :=
  List.nodup_flatMap.mpr ⟨fun b _ => nodup_fieldStarts t b,
    (pairwise_messageBlocks t).imp_of_mem fun hb hc hlt => disjoint_fieldStarts hb hc hlt⟩

theorem fieldTotal_le (t : Bytes) : fieldTotal t ≤ t.length := by
  have hcount : ((messageBlocks t).flatMap (fieldStarts t)).length = fieldTotal t := by
    simp [List.length_flatMap, fieldStarts, fieldTotal]
  have hsubset : (messageBlocks t).flatMap (fieldStarts t) ⊆ List.range t.length := by
    intro k hk
    obtain ⟨b, hb, hk⟩ := List.mem_flatMap.mp hk
    have hin := Block.containsOffset_iff.mp (fieldStarts_inside hb hk)
    have hlen := (List.getElem?_eq_some_iff.mp (getElem?_rbrace hb).1).1
    exact List.mem_range.mpr (by omega)
  have hlength := (List.subperm_of_subset (nodup_flatMap_fieldStarts t) hsubset).length_le
  rwa [hcount, List.length_range] at hlength

end FieldTags
