import FieldTags.Proofs.Shape.Field

/-! The label, the type and the name of a declaration. The shape of a text decides which pieces they
are, so texts of one shape have the same labels, and the same types and names where they have the same
numbers in them. -/
namespace FieldTags
namespace Declaration

def opening? (t : Bytes) : Option Opening := (openings t).find? fun o => (complete? t o).isSome

namespace Opening

def nameStart (o : Opening) (t : Bytes) : Nat := o.typeStop + gapLength (t.drop o.typeStop)

def nameStop (o : Opening) (t : Bytes) : Nat :=
  o.nameStart t + nameLength (t.drop (o.nameStart t))

end Opening

/-- The declaration `d` of the text `t` begins with the opening `o`. -/
structure OpensWith (t : Bytes) (o : Opening) (d : Declaration) : Prop where
  label : d.label = o.label
  type : d.type = t.between o.typeStart o.typeStop
  name : d.name = t.between (o.nameStart t) (o.nameStop t)
  nameStart : o.typeStop < o.nameStart t
  nameStop : o.nameStart t < o.nameStop t
  tagStart : o.nameStop t < d.tagStart

theorem opensWith_of_complete? {t : Bytes} {o : Opening} {d : Declaration}
    (h : complete? t o = some d) : OpensWith t o d := by
  unfold complete? at h
  simp only at h
  split at h
  · rename_i hc
    obtain ⟨n, -, hn⟩ := Option.bind_eq_some_iff.mp h
    split at hn
    · obtain rfl := Option.some.inj hn
      refine ⟨rfl, rfl, rfl, hc.1, hc.2.1, ?_⟩
      simp only [Opening.nameStop, Opening.nameStart]
      omega
    · simp at hn
  · simp at h

theorem front?_eq_bind (t : Bytes) : front? t = (opening? t).bind (complete? t) := by
  rw [front?, opening?]
  induction openings t with
  | nil => rfl
  | cons o os ih =>
    rw [List.findSome?_cons, List.find?_cons]
    cases ho : complete? t o with
    | none => exact ih
    | some d => simp [ho]

theorem exists_opening {t : Bytes} {d : Declaration} (h : front? t = some d) :
    ∃ o, opening? t = some o ∧ OpensWith t o d := by
  rw [front?_eq_bind] at h
  obtain ⟨o, ho, hd⟩ := Option.bind_eq_some_iff.mp h
  exact ⟨o, ho, opensWith_of_complete? hd⟩

end Declaration

namespace Pieces
open Declaration

theorem opening?_text (ps : Pieces) :
    opening? (text ps) = (opening? (shape ps)).map (Opening.move (offset ps)) := by
  rw [opening?, opening?, openings_text, List.find?_map]
  congr 2
  funext o
  have h := complete?_text ps o
  rw [Function.comp_apply]
  generalize complete? (text ps) (o.move (offset ps)) = x at h ⊢
  generalize complete? (shape ps) o = y at h ⊢
  cases h <;> rfl

theorem nameStart_text (ps : Pieces) (o : Opening) :
    (o.move (offset ps)).nameStart (text ps) = offset ps (o.nameStart (shape ps)) := by
  simp only [Opening.nameStart, Opening.move, gapLength_text, ← offset_add]

theorem nameStop_text (ps : Pieces) (o : Opening) :
    (o.move (offset ps)).nameStop (text ps) = offset ps (o.nameStop (shape ps)) := by
  rw [Opening.nameStop, nameStart_text, nameLength_text, ← offset_add]
  rfl

/-- The declaration `d` is spelt by the pieces that the opening `o` of the shape points at. -/
structure Spelt (ps : Pieces) (o : Opening) (d : Declaration) : Prop where
  label : d.label = o.label
  type : d.type = text (ps.between o.typeStart o.typeStop)
  name : d.name = text (ps.between (o.nameStart (shape ps)) (o.nameStop (shape ps)))

theorem exists_spelt {ps : Pieces} {d : Declaration} (h : front? (text ps) = some d) :
    ∃ o, opening? (shape ps) = some o ∧ Spelt ps o d := by
  obtain ⟨o, ho, hd⟩ := exists_opening h
  rw [opening?_text] at ho
  obtain ⟨p, hp, rfl⟩ := Option.map_eq_some_iff.mp ho
  refine ⟨p, hp, hd.label, ?_, ?_⟩
  · rw [hd.type, ← between_offset]
    rfl
  · rw [hd.name, nameStart_text, nameStop_text, between_offset]

theorem getElem?_between (ps : Pieces) (i j k : Nat) :
    (ps.between i j)[k]? = if i + k < j then ps[i + k]? else none := by
  rw [between, List.getElem?_drop, List.getElem?_take]

theorem between_drop_congr {ps qs : Pieces} {s i j : Nat}
    (h : ∀ k, s + i ≤ k → k < s + j → qs[k]? = ps[k]?) :
    between (qs.drop s) i j = between (ps.drop s) i j := by
  refine List.ext_getElem? fun k => ?_
  rw [getElem?_between, getElem?_between, List.getElem?_drop, List.getElem?_drop]
  split
  · exact h _ (by omega) (by omega)
  · rfl

end Pieces

namespace Field
open Declaration

/-- The byte `k` of the text `t` is one of the type of its field `g`. -/
def InType (t : Bytes) (g : Field) (k : Nat) : Prop :=
  ∃ o, opening? (t.drop g.start) = some o ∧ g.start + o.typeStart ≤ k ∧ k < g.start + o.typeStop

/-- The byte `k` of the text `t` is one of the name of its field `g`. -/
def InName (t : Bytes) (g : Field) (k : Nat) : Prop :=
  ∃ o, opening? (t.drop g.start) = some o ∧ g.start + o.nameStart (t.drop g.start) ≤ k ∧
    k < g.start + o.nameStop (t.drop g.start)

variable {t : Bytes} {g : Field} {k : Nat}

theorem opensWith_of_opening {o : Opening} (hg : g ∈ fields t)
    (ho : opening? (t.drop g.start) = some o) : OpensWith (t.drop g.start) o g.declaration := by
  obtain ⟨p, hp, hd⟩ := exists_opening (mem_fieldsFrom hg).2.2.2
  obtain rfl : o = p := Option.some.inj (ho.symm.trans hp)
  exact hd

theorem inType_bounds (hg : g ∈ fields t) (h : g.InType t k) : g.start ≤ k ∧ k < g.tagStart := by
  obtain ⟨o, ho, hlow, hhigh⟩ := h
  have hd := opensWith_of_opening hg ho
  have hname := hd.nameStart
  have hstop := hd.nameStop
  have htag := hd.tagStart
  rw [tagStart]
  omega

theorem inName_bounds (hg : g ∈ fields t) (h : g.InName t k) : g.start < k ∧ k < g.tagStart := by
  obtain ⟨o, ho, hlow, hhigh⟩ := h
  have hd := opensWith_of_opening hg ho
  have hname := hd.nameStart
  have htag := hd.tagStart
  rw [tagStart]
  omega

end Field

namespace Pieces
open Declaration

/-- The fields `f` of `ps` and `e` of `qs`, texts of one shape, stand where the shape has `g`. -/
structure Twins (ps qs : Pieces) (g f e : Field) : Prop where
  shape : shape qs = shape ps
  mem : g ∈ fields (Pieces.shape ps)
  left : front? (text (ps.drop g.start)) = some f.declaration
  right : front? (text (qs.drop g.start)) = some e.declaration

namespace Twins
variable {ps qs : Pieces} {g f e : Field}

theorem exists_spelt (h : Twins ps qs g f e) :
    ∃ o, opening? ((Pieces.shape ps).drop g.start) = some o ∧
      Spelt (ps.drop g.start) o f.declaration ∧ Spelt (qs.drop g.start) o e.declaration := by
  obtain ⟨o, ho, hf⟩ := Pieces.exists_spelt h.left
  obtain ⟨p, hp, he⟩ := Pieces.exists_spelt h.right
  rw [shape_drop] at ho
  rw [shape_drop, h.shape] at hp
  obtain rfl : o = p := Option.some.inj (ho.symm.trans hp)
  exact ⟨o, ho, hf, he⟩

theorem label_eq (h : Twins ps qs g f e) : e.declaration.label = f.declaration.label := by
  obtain ⟨o, -, hf, he⟩ := h.exists_spelt
  rw [hf.label, he.label]

theorem type_eq (h : Twins ps qs g f e)
    (hsame : ∀ k, g.InType (Pieces.shape ps) k → qs[k]? = ps[k]?) :
    e.declaration.type = f.declaration.type := by
  obtain ⟨o, ho, hf, he⟩ := h.exists_spelt
  rw [hf.type, he.type, between_drop_congr fun k hlow hhigh => hsame k ⟨o, ho, hlow, hhigh⟩]

theorem name_eq (h : Twins ps qs g f e)
    (hsame : ∀ k, g.InName (Pieces.shape ps) k → qs[k]? = ps[k]?) :
    e.declaration.name = f.declaration.name := by
  obtain ⟨o, ho, hf, he⟩ := h.exists_spelt
  rw [hf.name, he.name, shape_drop, shape_drop, h.shape,
    between_drop_congr fun k hlow hhigh => hsame k ⟨o, ho, hlow, hhigh⟩]

end Twins

theorem map_eq_of_forall₂ {α β γ : Type} {φ : α → γ} {ψ : β → γ} {as : List α} {bs : List β}
    (h : List.Forall₂ (fun a b => ψ b = φ a) as bs) : bs.map ψ = as.map φ := by
  induction h with
  | nil => rfl
  | cons hab _ ih => rw [List.map_cons, List.map_cons, hab, ih]

theorem fields_twins {ps qs : Pieces} (hshape : shape qs = shape ps) :
    List.Forall₂ (fun f e => ∃ g, Twins ps qs g f e) (fields (text ps)) (fields (text qs)) := by
  have hleft := fields_text ps
  have hright := fields_text qs
  rw [hshape] at hright
  refine List.forall₂_iff_get.mpr ⟨hleft.length_eq.trans hright.length_eq.symm, fun i hi hi' => ?_⟩
  have hin : i < (fields (shape ps)).length := hleft.length_eq ▸ hi
  have hf := hleft.get hi hin
  have he := hright.get hi' hin
  refine ⟨(fields (shape ps)).get ⟨i, hin⟩, hshape, List.get_mem _ _, ?_, ?_⟩
  · have hd := (mem_fieldsFrom (List.get_mem (fields (text ps)) ⟨i, hi⟩)).2.2.2
    rwa [hf.start, drop_offset] at hd
  · have hd := (mem_fieldsFrom (List.get_mem (fields (text qs)) ⟨i, hi'⟩)).2.2.2
    rwa [he.start, drop_offset] at hd

end Pieces
end FieldTags
