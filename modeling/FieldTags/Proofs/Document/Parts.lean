import FieldTags.Proofs.Document.Claims
import FieldTags.Proofs.Field.Parts

/-! Claims in a text put together from parts: each part is renumbered on its own, and the numbering
of direct fields goes on from one part to the next. -/
namespace FieldTags

theorem bodyOf_append_left {s : Bytes} (t : Bytes) {b : Block} (hb : b ∈ messageBlocks s) :
    bodyOf (s ++ t) b = bodyOf s b := by
  have hlen := (List.getElem?_eq_some_iff.mp (getElem?_rbrace hb).1).1
  rw [bodyOf, bodyOf, Bytes.between, Bytes.between,
    List.take_append_of_le_length (Nat.le_of_lt hlen)]

theorem bodyOf_append_right (s t : Bytes) (b : Block) :
    bodyOf (s ++ t) (b.shift s.length) = bodyOf t b := by
  have hstart : (b.shift s.length).bodyStart = s.length + b.bodyStart := rfl
  have hstop : (b.shift s.length).rbrace = s.length + b.rbrace := rfl
  rw [bodyOf, bodyOf, Bytes.between, Bytes.between, hstart, hstop, List.take_length_add_append,
    ← List.drop_drop, List.drop_left]

theorem ownClaims_append_left {s : Bytes} (t : Bytes) {b : Block} (hb : b ∈ messageBlocks s) :
    ownClaims (s ++ t) b = ownClaims s b := by
  rw [ownClaims, ownClaims, bodyOf_append_left t hb]

theorem ownClaims_append_right (s t : Bytes) (b : Block) :
    ownClaims (s ++ t) (b.shift s.length) = (ownClaims t b).map (Edit.shift s.length) := by
  have hstart : (b.shift s.length).bodyStart = s.length + b.bodyStart := rfl
  rw [ownClaims_eq_retag, ownClaims_eq_retag, bodyOf_append_right, List.map_map]
  refine List.map_congr_left fun e _ => ?_
  simp only [Function.comp_apply, Edit.shift, hstart, Nat.add_assoc]

theorem claims_append {s t : Bytes} (hs : Parted s) (ht : Utf8.trailing t = 0)
    (hms : Matched s) : claims (s ++ t) = claims s ++ (claims t).map (Edit.shift s.length) := by
  rw [claims, messageBlocks_append hs ht hms, List.flatMap_append, List.flatMap_map, claims,
    claims, List.map_flatMap]
  congr 1
  · exact List.flatMap_congr fun b hb => ownClaims_append_left t hb
  · exact List.flatMap_congr fun b _ => ownClaims_append_right s t b

theorem claims_inside {t : Bytes} : ∀ e ∈ claims t, e.start < e.stop ∧ e.stop ≤ t.length := by
  intro e he
  obtain ⟨b, hb, he⟩ := List.mem_flatMap.mp he
  obtain ⟨-, hlt, hstop⟩ := ownClaims_inside hb he
  have hlen := (List.getElem?_eq_some_iff.mp (getElem?_rbrace hb).1).1
  omega

theorem substitute_claims_append {s t : Bytes} (hs : Parted s) (ht : Utf8.trailing t = 0)
    (hms : Matched s) :
    Edit.substitute (claims (s ++ t)) (s ++ t) =
      Edit.substitute (claims s) s ++ Edit.substitute (claims t) t := by
  rw [claims_append hs ht hms]
  refine Edit.substitute_append claims_inside (fun i hi => ?_) fun i => ?_
  · rw [List.find?_append, Edit.find?_map_shift_of_lt _ hi, Option.or_none]
  · have hnone : (claims s).find? (·.start = s.length + i) = none :=
      Edit.find?_eq_none_of_inside
        (fun e he => Nat.lt_of_lt_of_le (claims_inside e he).1 (claims_inside e he).2)
        (Nat.le_add_right _ i)
    rw [List.find?_append, hnone, Option.none_or, Edit.find?_map_shift]

def edits (k : Nat) (t : Bytes) : List Edit := retagFrom k (fields t) ++ claims t

theorem retagFrom_append (k : Nat) (fs gs : List Field) :
    retagFrom k (fs ++ gs) = retagFrom k fs ++ retagFrom (k + fs.length) gs := by
  induction fs generalizing k with
  | nil => rfl
  | cons f fs ih =>
    rw [List.cons_append, retagFrom, retagFrom, ih, List.cons_append, List.length_cons,
      Nat.add_right_comm, Nat.add_assoc]

theorem retagFrom_shift (k n : Nat) (fs : List Field) :
    retagFrom k (fs.map (Field.shift n)) = (retagFrom k fs).map (Edit.shift n) := by
  induction fs generalizing k with
  | nil => rfl
  | cons f fs ih =>
    rw [List.map_cons, retagFrom, retagFrom, ih, List.map_cons]
    congr 1
    simp only [Edit.shift, Field.tagStop, Field.tagStart, Field.shift, Nat.add_assoc]

theorem edits_inside (k : Nat) {t : Bytes} :
    ∀ e ∈ edits k t, e.start < e.stop ∧ e.stop ≤ t.length := by
  intro e he
  rcases List.mem_append.mp he with he | he
  · obtain ⟨i, hi⟩ := List.mem_iff_getElem?.mp he
    rw [getElem?_retagFrom] at hi
    obtain ⟨f, hf, rfl⟩ := Option.map_eq_some_iff.mp hi
    obtain ⟨-, hlt, hstop, hsemi⟩ := Field.tag_of_mem (List.mem_of_getElem? hf)
    have := (List.getElem?_eq_some_iff.mp hsemi).1
    simp only
    omega
  · exact claims_inside e he

theorem substitute_edits_append {s t : Bytes} (hs : Sealed s) (ht : Utf8.trailing t = 0)
    (k : Nat) :
    Edit.substitute (edits k (s ++ t)) (s ++ t) =
      Edit.substitute (edits k s) s ++
        Edit.substitute (edits (k + (fields s).length) t) t := by
  have hsplit : edits k (s ++ t) =
      retagFrom k (fields s) ++
        (retagFrom (k + (fields s).length) (fields t)).map (Edit.shift s.length) ++
      (claims s ++ (claims t).map (Edit.shift s.length)) := by
    rw [edits, fields_append hs ht, claims_append hs.toParted ht hs.matched, retagFrom_append,
      retagFrom_shift]
  have hinside : ∀ es : List Edit, (∀ e ∈ es, e ∈ edits k s) → ∀ i,
      es.find? (·.start = s.length + i) = none := by
    intro es hes i
    refine Edit.find?_eq_none_of_inside (fun e he => ?_) (Nat.le_add_right _ i)
    have := edits_inside k e (hes e he)
    omega
  rw [hsplit]
  refine Edit.substitute_append (edits_inside k) (fun i hi => ?_) fun i => ?_
  · simp only [edits, List.find?_append, Edit.find?_map_shift_of_lt _ hi, Option.or_none]
  · have hfirst := hinside (retagFrom k (fields s))
      (fun e he => List.mem_append_left _ he) i
    have hsecond := hinside (claims s) (fun e he => List.mem_append_right _ he) i
    simp only [edits, List.find?_append, hfirst, hsecond, Edit.find?_map_shift, Option.none_or]
    cases (retagFrom (k + (fields s).length) (fields t)).find? (·.start = i) <;> rfl

theorem claims_framed {o t : Bytes} {i : Nat} (hf : Framed o t i) :
    claims (o ++ [Ascii.leftBrace] ++ t ++ [Ascii.rightBrace]) =
      (edits 1 t).map (Edit.shift (o ++ [Ascii.leftBrace]).length) := by
  have hlen : (o ++ [Ascii.leftBrace]).length = o.length + 1 := by simp
  have hbody : bodyOf (o ++ [Ascii.leftBrace] ++ t ++ [Ascii.rightBrace])
      ⟨o.length, o.length + 1 + t.length⟩ = t := by
    have htake : (o ++ [Ascii.leftBrace] ++ t ++ [Ascii.rightBrace]).take
        (o.length + 1 + t.length) = o ++ [Ascii.leftBrace] ++ t := by
      rw [← hlen, ← List.length_append, List.take_left]
    have hstart : (⟨o.length, o.length + 1 + t.length⟩ : Block).bodyStart =
        (o ++ [Ascii.leftBrace]).length := hlen.symm
    rw [bodyOf, Bytes.between, htake, hstart, List.drop_left]
  rw [claims, hf.messageBlocks_framed, List.flatMap_cons, edits, List.map_append, ownClaims_eq_retag, hbody,
    ← hlen, List.flatMap_map, claims, List.map_flatMap]
  congr 1
  · rw [Block.bodyStart, hlen]
    rfl
  · refine List.flatMap_congr fun b hb => ?_
    rw [List.append_assoc, ownClaims_append_right, ownClaims_append_left _ hb]

end FieldTags
