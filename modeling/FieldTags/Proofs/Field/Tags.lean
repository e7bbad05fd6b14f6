import FieldTags.Document.Rewriter
import FieldTags.Proofs.Text.Substitution

/-! The tags of the direct fields of a body: each is a whole run of digits, they come in the order
of the text, and no two of them touch. -/
namespace FieldTags

namespace Declaration

theorem front?_eq_some {t : Bytes} {d : Declaration} (h : front? t = some d) :
    d.tag = (t.drop d.tagStart).takeWhile Ascii.isDigit ∧ d.tag ≠ [] ∧
      d.tagStart + d.tag.length < d.length ∧ t[d.length - 1]? = some Ascii.semicolon := by
  obtain ⟨o, -, ho⟩ := List.exists_of_findSome?_eq_some h
  unfold complete? at ho
  simp only at ho
  split at ho
  · rename_i hc
    obtain ⟨n, -, hn⟩ := Option.bind_eq_some_iff.mp ho
    split at hn
    · rename_i hsemi
      obtain rfl := Option.some.inj hn
      refine ⟨rfl, hc.2.2.2, ?_, hsemi⟩
      simp only
      omega
    · simp at hn
  · simp at ho

end Declaration

theorem fieldsFrom_cons_cases (body : Bytes) (nested : List Block) (free start : Nat) :
    (∀ starts,
      fieldsFrom body nested free (start :: starts) = fieldsFrom body nested free starts) ∨
    ∃ d, free ≤ start ∧ nested.any (·.containsOffset start) = false ∧
      Declaration.front? (body.drop start) = some d ∧
      ∀ starts, fieldsFrom body nested free (start :: starts) =
        ⟨start, d⟩ :: fieldsFrom body nested (start + d.length) starts := by
  by_cases hhere : start < free ∨ nested.any (·.containsOffset start) = true
  · left
    intro starts
    rw [fieldsFrom, if_pos hhere]
  cases hd : Declaration.front? (body.drop start) with
  | none =>
    left
    intro starts
    rw [fieldsFrom, if_neg hhere, hd]
  | some d =>
    by_cases htype : d.type = Field.optionKeyword
    · left
      intro starts
      rw [fieldsFrom, if_neg hhere, hd]
      exact if_pos htype
    · right
      obtain ⟨hfree, hnested⟩ := not_or.mp hhere
      refine ⟨d, by omega, by simpa using hnested, rfl, fun starts => ?_⟩
      rw [fieldsFrom, if_neg hhere, hd]
      exact if_neg htype

theorem mem_fieldsFrom {body : Bytes} {nested : List Block} {free : Nat} {starts : List Nat}
    {f : Field} (h : f ∈ fieldsFrom body nested free starts) :
    free ≤ f.start ∧ f.start ∈ starts ∧ nested.any (·.containsOffset f.start) = false ∧
      Declaration.front? (body.drop f.start) = some f.declaration := by
  induction starts generalizing free with
  | nil => simp [fieldsFrom] at h
  | cons start starts ih =>
    rcases fieldsFrom_cons_cases body nested free start with hskip | ⟨d, hfree, hclear, hd, htake⟩
    · rw [hskip] at h
      obtain ⟨hfree, hmem, hrest⟩ := ih h
      exact ⟨hfree, List.mem_cons_of_mem _ hmem, hrest⟩
    · rw [htake] at h
      rcases List.mem_cons.mp h with rfl | h
      · exact ⟨hfree, by simp, hclear, hd⟩
      · obtain ⟨hlater, hmem, hrest⟩ := ih h
        exact ⟨by omega, List.mem_cons_of_mem _ hmem, hrest⟩

namespace Field

theorem tag_of_mem {body : Bytes} {nested : List Block} {free : Nat} {starts : List Nat}
    {f : Field} (h : f ∈ fieldsFrom body nested free starts) :
    f.declaration.tag = (body.drop f.tagStart).takeWhile Ascii.isDigit ∧
      f.tagStart < f.tagStop ∧ f.tagStop < f.stop ∧
      body[f.stop - 1]? = some Ascii.semicolon := by
  obtain ⟨-, -, -, hd⟩ := mem_fieldsFrom h
  obtain ⟨htag, hne, hstop, hsemi⟩ := Declaration.front?_eq_some hd
  have hpos := List.length_pos_of_ne_nil hne
  rw [List.drop_drop] at htag
  rw [List.getElem?_drop] at hsemi
  refine ⟨htag, by unfold tagStop; omega, by unfold tagStop tagStart stop; omega, ?_⟩
  rw [stop, Nat.add_sub_assoc (by omega)]
  exact hsemi

end Field

theorem pairwise_fieldsFrom (body : Bytes) (nested : List Block) (free : Nat) (starts : List Nat) :
    (fieldsFrom body nested free starts).Pairwise fun f g => f.stop ≤ g.start := by
  induction starts generalizing free with
  | nil => exact List.Pairwise.nil
  | cons start starts ih =>
    rcases fieldsFrom_cons_cases body nested free start with hskip | ⟨d, -, -, -, htake⟩
    · rw [hskip]
      exact ih free
    · rw [htake]
      exact List.pairwise_cons.mpr ⟨fun g hg => (mem_fieldsFrom hg).1, ih _⟩

theorem pairwise_fields (body : Bytes) : (fields body).Pairwise fun f g => f.stop ≤ g.start :=
  pairwise_fieldsFrom body _ 0 _

@[simp] theorem length_retagFrom (tag : Nat) (fs : List Field) :
    (retagFrom tag fs).length = fs.length := by
  induction fs generalizing tag with
  | nil => rfl
  | cons f fs ih => simp [retagFrom, ih]

theorem getElem?_retagFrom (tag : Nat) (fs : List Field) (i : Nat) :
    (retagFrom tag fs)[i]? =
      fs[i]?.map fun f => ⟨f.tagStart, f.tagStop, Ascii.decimal (tag + i)⟩ := by
  induction fs generalizing tag i with
  | nil => rfl
  | cons f fs ih =>
    cases i with
    | zero => rfl
    | succ i =>
      rw [retagFrom, List.getElem?_cons_succ, List.getElem?_cons_succ, ih,
        Nat.add_right_comm, Nat.add_assoc]

theorem retag_eq_mapIdx (fs : List Field) :
    retag fs = fs.mapIdx fun i f => ⟨f.tagStart, f.tagStop, Ascii.decimal (i + 1)⟩ := by
  refine List.ext_getElem? fun i => ?_
  rw [retag, getElem?_retagFrom, List.getElem?_mapIdx, Nat.add_comm 1]

theorem mem_retag {fs : List Field} {e : Edit} (h : e ∈ retag fs) :
    (∃ f ∈ fs, e.start = f.tagStart ∧ e.stop = f.tagStop) ∧ e.text.IsNumber := by
  obtain ⟨i, hi⟩ := List.mem_iff_getElem?.mp h
  rw [retag, getElem?_retagFrom] at hi
  obtain ⟨f, hf, rfl⟩ := Option.map_eq_some_iff.mp hi
  exact ⟨⟨f, List.mem_of_getElem? hf, rfl, rfl⟩, Ascii.isNumber_decimal _⟩

theorem exists_mem_retag {fs : List Field} {f : Field} (h : f ∈ fs) :
    ∃ e ∈ retag fs, e.start = f.tagStart ∧ e.stop = f.tagStop := by
  obtain ⟨i, hi⟩ := List.mem_iff_getElem?.mp h
  have he := getElem?_retagFrom 1 fs i
  rw [hi, Option.map_some] at he
  exact ⟨_, List.mem_of_getElem? he, rfl, rfl⟩

theorem ascending_retagFrom (tag : Nat) {body : Bytes} {nested : List Block} {position free : Nat}
    (starts : List Nat) (h : position ≤ free) :
    Edit.Ascending position body.length
      (retagFrom tag (fieldsFrom body nested free starts)) := by
  induction starts generalizing tag position free with
  | nil => exact trivial
  | cons start starts ih =>
    rcases fieldsFrom_cons_cases body nested free start with hskip | ⟨d, hfree, -, hd, htake⟩
    · rw [hskip]
      exact ih tag h
    · obtain ⟨htag, hne, hstop, hsemi⟩ := Declaration.front?_eq_some hd
      have hpos := List.length_pos_of_ne_nil hne
      have hlen := (List.getElem?_eq_some_iff.mp hsemi).1
      rw [List.length_drop] at hlen
      have hnext : start + d.tagStart + d.tag.length ≤ start + d.length := by omega
      rw [htake]
      refine ⟨?_, ?_, ?_, ih (tag + 1) hnext⟩
      · change position ≤ start + d.tagStart
        omega
      · change start + d.tagStart < start + d.tagStart + d.tag.length
        omega
      · change start + d.tagStart + d.tag.length ≤ body.length
        omega

theorem ascending_retag (body : Bytes) :
    Edit.Ascending 0 body.length (retag (fields body)) :=
  ascending_retagFrom 1 _ (Nat.le_refl 0)

theorem renumberBody_eq_substitute (body : Bytes) :
    renumberBody body = Edit.substitute (retag (fields body)) body :=
  Edit.applyAll_eq_substitute (ascending_retag body)

end FieldTags
