import FieldTags.Proofs.Field.Tags
import FieldTags.Proofs.Message.Parts

/-! The direct fields of a text put together from parts: those of the first part, then those of the
text behind it. -/
namespace FieldTags

def Field.shift (k : Nat) (f : Field) : Field := ⟨k + f.start, f.declaration⟩

/-- A part whose last byte completes an event, and whose fields are the same before any text. -/
structure Sealed (s : Bytes) : Prop extends Parted s where
  matched : Matched s
  event : ∃ es kind, eventsFrom .code 0 s = es ++ [⟨kind, s.length - 1⟩]
  steady : ∀ u, fieldsFrom (s ++ u) (messageBlocks s) 0 (statementStarts s) = fields s

theorem Parted.length_pos {s : Bytes} (hs : Parted s) : 0 < s.length := by
  obtain ⟨r, c, rfl, -, -⟩ := hs.last
  simp

theorem filter_starts_move (k stop : Nat) (es : List Event) :
    ((es.map (Event.move (k + ·))).map (·.offset + 1)).filter (· < k + stop) =
      ((es.map (·.offset + 1)).filter (· < stop)).map (k + ·) := by
  rw [map_succ_offset_move, List.filter_map]
  congr 1
  exact List.filter_congr fun i _ => by simp

theorem statementStarts_append {s t : Bytes} (hs : Sealed s) (ht : t ≠ []) :
    statementStarts (s ++ t) =
      statementStarts s ++ (statementStarts t).map (s.length + ·) := by
  obtain ⟨es, kind, hes⟩ := hs.event
  have hpos := hs.length_pos
  have htpos := List.length_pos_of_ne_nil ht
  have hbefore : ∀ e ∈ es, e.offset + 1 < s.length := by
    intro e he
    have hsorted := pairwise_eventsFrom .code 0 s
    rw [hes, List.pairwise_append] at hsorted
    have : e.offset < s.length - 1 := hsorted.2.2 e he _ (List.mem_singleton.mpr rfl)
    omega
  have hall : ∀ n, s.length ≤ n →
      (es.map (·.offset + 1)).filter (· < n) = es.map (·.offset + 1) := by
    intro n hn
    rw [List.filter_eq_self]
    intro k hk
    obtain ⟨e, he, rfl⟩ := List.mem_map.mp hk
    have := hbefore e he
    simp only [decide_eq_true_eq]
    omega
  have hevents : events (s ++ t) = es ++ [⟨kind, s.length - 1⟩] ++
      (events t).map (Event.move (s.length + ·)) := by
    have happ : events (s ++ t) = eventsFrom .code 0 (s ++ t) := rfl
    rw [happ, eventsFrom_append, hes, hs.code, Nat.zero_add, eventsFrom_eq_move]
    rfl
  have hfirst : statementStarts s = 0 :: es.map (·.offset + 1) := by
    have hev : events s = es ++ [⟨kind, s.length - 1⟩] := hes
    rw [statementStarts, hev, List.map_append, List.filter_append, hall _ (Nat.le_refl _)]
    simp [Nat.sub_add_cancel hpos]
  have hlast : s.length - 1 + 1 = s.length := Nat.sub_add_cancel hpos
  have hstarts : (events (s ++ t)).map (·.offset + 1) = es.map (·.offset + 1) ++ [s.length] ++
      ((events t).map (Event.move (s.length + ·))).map (·.offset + 1) := by
    rw [hevents, List.map_append, List.map_append, List.map_singleton, hlast]
  rw [hfirst, statementStarts, hstarts, List.length_append, List.filter_append, List.filter_append,
    hall _ (Nat.le_add_right _ _), filter_starts_move, statementStarts]
  simp [htpos]

theorem fieldsFrom_append (body : Bytes) (nested : List Block) (free : Nat) (ss ts : List Nat) :
    ∃ after, fieldsFrom body nested free (ss ++ ts) =
        fieldsFrom body nested free ss ++ fieldsFrom body nested after ts ∧
      (after = free ∨ ∃ f ∈ fieldsFrom body nested free ss, after = f.stop) := by
  induction ss generalizing free with
  | nil => exact ⟨free, rfl, Or.inl rfl⟩
  | cons start ss ih =>
    rw [List.cons_append]
    rcases fieldsFrom_cons_cases body nested free start with hskip | ⟨d, -, -, -, htake⟩
    · rw [hskip, hskip]
      exact ih free
    · obtain ⟨after, heq, hafter⟩ := ih (start + d.length)
      rw [htake, htake]
      refine ⟨after, by rw [heq, List.cons_append], Or.inr ?_⟩
      rcases hafter with rfl | ⟨f, hf, rfl⟩
      · exact ⟨⟨start, d⟩, by simp, rfl⟩
      · exact ⟨f, by simp [hf], rfl⟩

theorem fieldsFrom_congr {body : Bytes} {nested other : List Block} {free : Nat}
    {starts : List Nat} (h : ∀ k ∈ starts,
      nested.any (·.containsOffset k) = other.any (·.containsOffset k)) :
    fieldsFrom body nested free starts = fieldsFrom body other free starts := by
  induction starts generalizing free with
  | nil => rfl
  | cons start starts ih =>
    have ih := fun free => @ih free fun k hk => h k (by simp [hk])
    unfold fieldsFrom
    simp only [h start (by simp), ih]

theorem fieldsFrom_shift {s t : Bytes} {nested other : List Block} {free after : Nat}
    {starts : List Nat} (hafter : ∀ k, s.length + k < after ↔ k < free)
    (h : ∀ k ∈ starts,
      nested.any (·.containsOffset (s.length + k)) = other.any (·.containsOffset k)) :
    fieldsFrom (s ++ t) nested after (starts.map (s.length + ·)) =
      (fieldsFrom t other free starts).map (Field.shift s.length) := by
  induction starts generalizing free after with
  | nil => rfl
  | cons start starts ih =>
    have ih := fun free after hafter => @ih free after hafter fun k hk => h k (by simp [hk])
    have hdrop : (s ++ t).drop (s.length + start) = t.drop start := by
      rw [← List.drop_drop, List.drop_left]
    rw [List.map_cons]
    unfold fieldsFrom
    simp only [h start (by simp), hafter, hdrop]
    split
    · exact ih _ _ hafter
    · cases Declaration.front? (t.drop start) with
      | none => exact ih _ _ hafter
      | some d =>
        simp only
        split
        · exact ih _ _ hafter
        · rw [List.map_cons]
          congr 1
          exact ih _ _ fun k => by omega

theorem lt_length_of_mem_statementStarts {s : Bytes} (hs : 0 < s.length) {k : Nat}
    (hk : k ∈ statementStarts s) : k < s.length := by
  rcases List.mem_cons.mp hk with rfl | hk
  · exact hs
  · simpa using (List.mem_filter.mp hk).2

section
variable {s t : Bytes} (hs : Sealed s) (ht : Utf8.trailing t = 0)
include hs ht

theorem any_containsOffset_append_left {k : Nat} (hk : k < s.length) :
    (messageBlocks (s ++ t)).any (·.containsOffset k) =
      (messageBlocks s).any (·.containsOffset k) := by
  have hno : ((messageBlocks t).map (Block.shift s.length)).any (·.containsOffset k) = false := by
    rw [List.any_eq_false]
    intro b hb
    obtain ⟨c, -, rfl⟩ := List.mem_map.mp hb
    have : ¬ s.length + c.lbrace < k := by omega
    simp [Block.containsOffset, Block.shift, this]
  rw [messageBlocks_append hs.toParted ht hs.matched, List.any_append, hno, Bool.or_false]

theorem any_containsOffset_append_right (k : Nat) :
    (messageBlocks (s ++ t)).any (·.containsOffset (s.length + k)) =
      (messageBlocks t).any (·.containsOffset k) := by
  have hno : (messageBlocks s).any (·.containsOffset (s.length + k)) = false := by
    rw [List.any_eq_false]
    intro b hb
    have hlen := (List.getElem?_eq_some_iff.mp (getElem?_rbrace hb).1).1
    have : ¬ s.length + k < b.rbrace := by omega
    simp [Block.containsOffset, this]
  rw [messageBlocks_append hs.toParted ht hs.matched, List.any_append, hno, Bool.false_or,
    List.any_map]
  congr 1
  funext b
  simp only [Function.comp_apply, Block.containsOffset, Block.shift, Nat.add_lt_add_iff_left]

theorem fields_append :
    fields (s ++ t) = fields s ++ (fields t).map (Field.shift s.length) := by
  by_cases hnil : t = []
  · subst hnil
    rw [List.append_nil]
    exact (List.append_nil _).symm
  obtain ⟨after, heq, hafter⟩ := fieldsFrom_append (s ++ t) (messageBlocks (s ++ t)) 0
    (statementStarts s) ((statementStarts t).map (s.length + ·))
  have hleft := fun k hk => any_containsOffset_append_left hs ht (k := k)
    (lt_length_of_mem_statementStarts hs.length_pos hk)
  have hright := fun k (_ : k ∈ statementStarts t) => any_containsOffset_append_right hs ht k
  rw [fieldsFrom_congr hleft, hs.steady] at heq hafter
  -- the last field of the part ends in the part
  have hle : after ≤ s.length := by
    rcases hafter with rfl | ⟨f, hf, rfl⟩
    · omega
    · obtain ⟨-, -, -, hsemi⟩ := Field.tag_of_mem hf
      have := (List.getElem?_eq_some_iff.mp hsemi).1
      omega
  have hfree : ∀ k, s.length + k < after ↔ k < 0 := fun k => by omega
  rw [fields, statementStarts_append hs hnil, heq, fieldsFrom_shift hfree hright]
  rfl

end

end FieldTags
