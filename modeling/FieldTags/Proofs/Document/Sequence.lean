import FieldTags.Proofs.Document.Renumbering

/-! When the fields of every message of a renumbered document count 1, 2, 3, ... A declaration whose
map type reaches over the opening brace of a nested message has its tag inside that message, so
that both messages claim it. -/
namespace FieldTags

def tagsOf (body : Bytes) : List Bytes := (fields body).map (·.declaration.tag)

def numbered (n : Nat) : List Bytes := (List.range' 1 n).map Ascii.decimal

/-- The direct fields of every message have the tags 1, 2, 3, ... in the order of the text. -/
def Sequential (t : Bytes) : Prop :=
  ∀ b ∈ messageBlocks t, tagsOf (bodyOf t b) = numbered (fields (bodyOf t b)).length

instance (t : Bytes) : Decidable (Sequential t) := inferInstanceAs (Decidable (∀ _ ∈ _, _))

/-- No tag is claimed with two different numbers. -/
def Agreed (es : List Edit) : Prop := ∀ e ∈ es, ∀ f ∈ es, e.start = f.start → e.text = f.text

instance (es : List Edit) : Decidable (Agreed es) :=
  inferInstanceAs (Decidable (∀ e ∈ es, ∀ f ∈ es, e.start = f.start → e.text = f.text))

theorem Edit.Ascending.agreed {es : List Edit} {position stop : Nat}
    (h : Edit.Ascending position stop es) : Agreed es := by
  induction es generalizing position with
  | nil => simp [Agreed]
  | cons e es ih =>
    obtain ⟨-, hlt, -, hrest⟩ := h
    have hlater : ∀ f ∈ es, e.start ≠ f.start := fun f hf =>
      Nat.ne_of_lt (Nat.lt_of_lt_of_le hlt (hrest.le_start f hf))
    intro f hf g hg heq
    rcases List.mem_cons.mp hf with hfe | hfs <;> rcases List.mem_cons.mp hg with hge | hgs
    · rw [hfe, hge]
    · exact absurd (hfe ▸ heq) (hlater g hgs)
    · exact absurd (hge ▸ heq.symm) (hlater f hfs)
    · exact ih hrest f hfs g hgs heq

theorem retagFrom_map_text (tag : Nat) (fs : List Field) :
    (retagFrom tag fs).map Edit.text = (List.range' tag fs.length).map Ascii.decimal := by
  induction fs generalizing tag with
  | nil => rfl
  | cons f fs ih =>
    rw [retagFrom, List.map_cons, ih, List.length_cons, List.range'_succ, List.map_cons]

theorem retagFrom_map_start {α : Type} (g : Nat → α) (tag : Nat) (fs : List Field) :
    (retagFrom tag fs).map (fun e => g e.start) = fs.map fun f => g f.tagStart := by
  induction fs generalizing tag with
  | nil => rfl
  | cons f fs ih => rw [retagFrom, List.map_cons, List.map_cons, ih]

namespace Pieces

def written (es : List Edit) (k : Nat) : Bytes :=
  ((es.find? (·.start = k)).map Edit.text).getD []

theorem tagsOf_text (ps : Pieces) :
    tagsOf (text ps) =
      (fields (shape ps)).map fun g => text (ps.between g.tagStart g.tagStop) := by
  have h := fields_text ps
  rw [tagsOf]
  generalize fields (text ps) = fs at h ⊢
  generalize fields (shape ps) = gs at h ⊢
  induction h with
  | nil => rfl
  | cons hfg _ ih => rw [List.map_cons, List.map_cons, ih, hfg.tag]

theorem agreed_iff_written {es : List Edit} :
    Agreed es ↔ ∀ e ∈ es, written es e.start = e.text := by
  constructor
  · intro h e he
    obtain ⟨f, hf, hfind, hstart⟩ := Edit.exists_find?_start he
    rw [written, hfind]
    exact h f hf e he hstart
  · intro h e he f hf heq
    rw [← h e he, ← h f hf, heq]

theorem agreed_move {ps : Pieces} {es : List Edit} :
    Agreed (es.map (Edit.move (offset ps))) ↔ Agreed es := by
  simp only [Agreed, List.forall_mem_map, Edit.move]
  constructor
  · intro h e he f hf heq
    exact h e he f hf (congrArg (offset ps) heq)
  · intro h e he f hf heq
    exact h e he f hf (offset_inj heq)

theorem text_between_overwrite {es : List Edit} {ps : Pieces} {e : Edit}
    (h : Retags (shape ps) es) (he : e ∈ es) :
    text ((overwrite es ps).between e.start (e.start + 1)) = written es e.start := by
  obtain ⟨-, ⟨b, hb, hdigit⟩, -⟩ := h e he
  obtain ⟨f, hf, hfind, -⟩ := Edit.exists_find?_start he
  have hnumber : f.text.IsNumber := (h f hf).2.2
  obtain ⟨p, hp, rfl⟩ := exists_of_shape hb
  have hget : (overwrite es ps)[e.start]? = some (p.retext (some f)) := by
    rw [getElem?_overwrite, hp, hfind]
    rfl
  rw [between_one hget, written, hfind, text_cons, Piece.text_retext hdigit hnumber]
  simp

theorem between_body (ps : Pieces) (b : Block) {i j : Nat} (h : b.bodyStart + j ≤ b.rbrace) :
    (ps.body b).between i j = ps.between (b.bodyStart + i) (b.bodyStart + j) := by
  rw [body, between, between, between, List.take_drop, List.take_take, Nat.min_eq_left h,
    List.drop_drop]

theorem mem_claims {t : Bytes} {b : Block} (hb : b ∈ messageBlocks t) {e : Edit}
    (he : e ∈ ownClaims t b) : e ∈ claims t :=
  List.mem_flatMap.mpr ⟨b, hb, he⟩

theorem tagsOf_overwrite {ps : Pieces} (hs : Separated (shape ps)) {b : Block}
    (hb : b ∈ messageBlocks (shape ps)) :
    tagsOf (text ((overwrite (claims (shape ps)) ps).body b)) =
      (ownClaims (shape ps) b).map fun e => written (claims (shape ps)) e.start := by
  have hfields : ∀ g ∈ fields (bodyOf (shape ps) b),
      text (((overwrite (claims (shape ps)) ps).body b).between g.tagStart g.tagStop) =
        written (claims (shape ps)) (b.bodyStart + g.tagStart) := by
    intro g hg
    obtain ⟨e, he, hstart, -⟩ := exists_mem_retag hg
    obtain ⟨hone, -⟩ := (separated_body hs b).tagStop hg
    have hown : e.shift b.bodyStart ∈ ownClaims (shape ps) b := shift_mem_ownClaims he
    have hin := ownClaims_inside hb hown
    have hat : (e.shift b.bodyStart).start = b.bodyStart + g.tagStart :=
      congrArg (b.bodyStart + ·) hstart
    rw [hone, between_body _ b (by omega), ← hat, ← Nat.add_assoc, ← hat]
    exact text_between_overwrite (retags_claims hs) (mem_claims hb hown)
  rw [tagsOf_text, shape_body, shape_overwrite, List.map_congr_left hfields, ownClaims_eq_retag, retag,
    List.map_map]
  exact (retagFrom_map_start (fun k => written _ (b.bodyStart + k)) 1 _).symm

end Pieces

open Pieces in
/-- Renumbering leaves every message with the tags 1, 2, 3, ... exactly when no tag is claimed with
two different numbers. -/
theorem sequential_renumberDocument_iff {t : Bytes} (hv : Utf8.isValid t = true) :
    Sequential (renumberDocument .tracked t).text ↔ Agreed (claims t) := by
  obtain ⟨ps, rfl, hs, hbodies⟩ := exists_text_eq (bodiesStart_of_isValid hv)
  rw [(renumberDocument_text hs hbodies).text]
  have hshape : shape (Pieces.overwrite (claims (shape ps)) ps) = shape ps := shape_overwrite _ ps
  -- block by block, the tags shown are the numbers asked for
  have hblock : ∀ b ∈ messageBlocks (shape ps),
      (tagsOf (text ((Pieces.overwrite (claims (shape ps)) ps).body b)) =
        numbered (fields (text ((Pieces.overwrite (claims (shape ps)) ps).body b))).length) ↔
      ∀ e ∈ ownClaims (shape ps) b, written (claims (shape ps)) e.start = e.text := by
    intro b hb
    have hcount : (fields (text ((Pieces.overwrite (claims (shape ps)) ps).body b))).length =
        (fields (bodyOf (shape ps) b)).length := by
      rw [(fields_text _).length_eq, shape_body, hshape]
    have hasked : numbered (fields (bodyOf (shape ps) b)).length =
        (ownClaims (shape ps) b).map Edit.text := by
      rw [numbered, ← retagFrom_map_text, ownClaims_eq_retag, List.map_map]
      rfl
    rw [hcount, tagsOf_overwrite hs hb, hasked, List.map_inj_left]
  have hbody : ∀ b ∈ messageBlocks (shape ps),
      bodyOf (text (Pieces.overwrite (claims (shape ps)) ps))
        (b.move (offset (Pieces.overwrite (claims (shape ps)) ps))) =
      text ((Pieces.overwrite (claims (shape ps)) ps).body b) := by
    intro b hb
    rw [← hshape] at hb
    exact bodyOf_text hb
  rw [Sequential, messageBlocks_text, hshape, List.forall_mem_map, claims_text, agreed_move,
    agreed_iff_written]
  constructor
  · intro h e he
    obtain ⟨b, hb, he⟩ := List.mem_flatMap.mp he
    have hseq := h b hb
    rw [hbody b hb] at hseq
    exact (hblock b hb).mp hseq e he
  · intro h b hb
    rw [hbody b hb]
    exact (hblock b hb).mpr fun e he => h e (mem_claims hb he)

theorem sequential_nested :
    Sequential (renumberDocument .tracked
      (Ascii.word "message A { message B { b x = 7; } b y = 30; b z = 2; }")).text :=
  (sequential_renumberDocument_iff (by decide +kernel)).mpr (by decide +kernel)

/-- The map type of the second declaration reaches into the nested message, whose own field then
has the tag 2. -/
theorem not_sequential_of_map_over_brace :
    Utf8.isValid (Ascii.word "message O { int32 a = 1; map< message X { > name = 5; } }") = true ∧
    ¬ Sequential (renumberDocument .tracked
      (Ascii.word "message O { int32 a = 1; map< message X { > name = 5; } }")).text := by
  decide +kernel

end FieldTags
