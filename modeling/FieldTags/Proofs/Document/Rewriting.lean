import FieldTags.Proofs.Document.Parts
import FieldTags.Proofs.Field.Atoms

/-! What a renumbering makes of a text put together from parts: of a document, of a part of a
message body, and of the rest of a body behind some parts. -/
namespace FieldTags

/-- Every message's body begins with a whole character, or is empty. -/
def Started (t : Bytes) : Prop :=
  ∀ b ∈ messageBlocks t, ∃ c, t[b.bodyStart]? = some c ∧ Utf8.isContinuation c = false

theorem Started.append {s t : Bytes} (hparted : Parted s) (ht : Utf8.trailing t = 0)
    (hms : Matched s) (hs : Started s) (hst : Started t) : Started (s ++ t) := by
  intro b hb
  rw [messageBlocks_append hparted ht hms, List.mem_append, List.mem_map] at hb
  rcases hb with hb | ⟨b, hb, rfl⟩
  · obtain ⟨c, hc, hcont⟩ := hs b hb
    exact ⟨c, by rw [List.getElem?_append_left (List.getElem?_eq_some_iff.mp hc).1, hc], hcont⟩
  · obtain ⟨c, hc, hcont⟩ := hst b hb
    refine ⟨c, ?_, hcont⟩
    have hstart : (b.shift s.length).bodyStart = s.length + b.bodyStart := rfl
    rw [hstart, List.getElem?_append_right (by omega), Nat.add_sub_cancel_left, hc]

/-- A text that the messages in it turn into `out`. -/
structure Rewrites (t : Bytes) (messages total : Nat) (out : Bytes) : Prop where
  front : Utf8.trailing t = 0
  messages_eq : (messageBlocks t).length = messages
  total_eq : (claims t).length = total
  text_eq : Edit.substitute (claims t) t = out
  started : Started t

theorem Rewrites.append {s t o q : Bytes} {m n c d : Nat} (hs : Parted s) (hms : Matched s)
    (hrs : Rewrites s m c o) (hrt : Rewrites t n d q) :
    Rewrites (s ++ t) (m + n) (c + d) (o ++ q) := by
  refine ⟨?_, ?_, ?_, ?_, hrs.started.append hs hrt.front hms hrt.started⟩
  · rw [Utf8.trailing_append hrt.front, hrs.front]
  · rw [messageBlocks_append hs hrt.front hms, List.length_append, List.length_map,
      hrs.messages_eq, hrt.messages_eq]
  · rw [claims_append hs hrt.front hms, List.length_append, List.length_map, hrs.total_eq,
      hrt.total_eq]
  · rw [substitute_claims_append hs hrt.front hms, hrs.text_eq, hrt.text_eq]

/-- The rest of a body, `a` blocks without messages being open before it. With its direct fields
numbered from `k` on it becomes `out k`. -/
structure Tail (a : Nat) (t : Bytes) (direct messages total : Nat) (out : Nat → Bytes) : Prop where
  code : Mode.run .code t = .code
  depth : Depth t a 0
  matched : Matched t
  front : Utf8.trailing t = 0
  direct_eq : (fields t).length = direct
  messages_eq : (messageBlocks t).length = messages
  total_eq : (claims t).length = total
  text_eq : ∀ k, Edit.substitute (edits k t) t = out k
  started : Started t

/-- A part of a body, which leads from `a` open blocks to `b`. -/
structure Part (a b : Nat) (s : Bytes) (direct messages total : Nat) (out : Nat → Bytes) :
    Prop extends Sealed s where
  depth : Depth s a b
  front : Utf8.trailing s = 0
  direct_eq : (fields s).length = direct
  messages_eq : (messageBlocks s).length = messages
  total_eq : (claims s).length = total
  text_eq : ∀ k, Edit.substitute (edits k s) s = out k
  started : Started s

theorem Part.prepend {a b : Nat} {s t : Bytes} {f g m n c d : Nat} {o q : Nat → Bytes}
    (hs : Part a b s f m c o) (ht : Tail b t g n d q) :
    Tail a (s ++ t) (f + g) (m + n) (c + d) fun k => o k ++ q (k + f) := by
  have hparted := hs.toParted
  have hmatched := hs.matched
  refine ⟨?_, hs.depth.append hs.code ht.depth, hmatched.append hparted ht.front ht.matched, ?_,
    ?_, ?_, ?_, fun k => ?_, hs.started.append hparted ht.front hmatched ht.started⟩
  · rw [Mode.run_append, hs.code, ht.code]
  · rw [Utf8.trailing_append ht.front, hs.front]
  · rw [fields_append hs.toSealed ht.front, List.length_append, List.length_map, hs.direct_eq,
      ht.direct_eq]
  · rw [messageBlocks_append hparted ht.front hmatched, List.length_append, List.length_map,
      hs.messages_eq, ht.messages_eq]
  · rw [claims_append hparted ht.front hmatched, List.length_append, List.length_map, hs.total_eq,
      ht.total_eq]
  · rw [substitute_edits_append hs.toSealed ht.front, hs.text_eq, hs.direct_eq, ht.text_eq]

theorem Part.rewrites {a b m c : Nat} {s : Bytes} {o : Nat → Bytes} (hs : Part a b s 0 m c o) :
    Rewrites s m c (o 0) := by
  have hfields := List.eq_nil_of_length_eq_zero hs.direct_eq
  refine ⟨hs.front, hs.messages_eq, hs.total_eq, ?_, hs.started⟩
  rw [← hs.text_eq 0, edits, hfields]
  rfl

theorem Framed.started {o t : Bytes} {i : Nat} (hf : Framed o t i) (ht : Started t) :
    Started (o ++ [Ascii.leftBrace] ++ t ++ [Ascii.rightBrace]) := by
  intro b hb
  rw [hf.messageBlocks_framed] at hb
  have hlen : (o ++ [Ascii.leftBrace]).length = o.length + 1 := by simp
  have hget : ∀ k, (o ++ [Ascii.leftBrace] ++ t ++ [Ascii.rightBrace])[o.length + 1 + k]? =
      (t ++ [Ascii.rightBrace])[k]? := by
    intro k
    rw [List.append_assoc, ← hlen, List.getElem?_append_right (by omega),
      Nat.add_sub_cancel_left]
  rcases List.mem_cons.mp hb with rfl | hb
  · have hfront := hf.front
    have hstart := hget 0
    cases hbody : t ++ [Ascii.rightBrace] with
    | nil => simp at hbody
    | cons x y =>
      rw [hbody] at hfront hstart
      refine ⟨x, hstart, ?_⟩
      by_contra hcont
      rw [Bool.not_eq_false] at hcont
      rw [Utf8.trailing_cons, hcont] at hfront
      simp at hfront
  · obtain ⟨g, hg, rfl⟩ := List.mem_map.mp hb
    obtain ⟨x, hx, hcont⟩ := ht g hg
    refine ⟨x, ?_, hcont⟩
    have hstart : (g.shift (o.length + 1)).bodyStart = o.length + 1 + g.bodyStart := rfl
    rw [hstart, hget, List.getElem?_append_left (List.getElem?_eq_some_iff.mp hx).1, hx]

theorem Framed.rewrites {o t : Bytes} {i f m c : Nat} {q : Nat → Bytes} (hf : Framed o t i)
    (hfront : Utf8.trailing (o ++ [Ascii.leftBrace]) = 0) (ht : Tail 0 t f m c q) :
    Rewrites (o ++ [Ascii.leftBrace] ++ t ++ [Ascii.rightBrace]) (1 + m) (f + c)
      (o ++ [Ascii.leftBrace] ++ q 1 ++ [Ascii.rightBrace]) := by
  refine ⟨?_, ?_, ?_, ?_, hf.started ht.started⟩
  · rw [List.append_assoc, Utf8.trailing_append hf.front, hfront]
  · rw [hf.messageBlocks_framed, List.length_cons, List.length_map, ht.messages_eq, Nat.add_comm]
  · rw [claims_framed hf, List.length_map, edits, List.length_append, length_retagFrom,
      ht.direct_eq, ht.total_eq]
  · rw [claims_framed hf, Edit.substitute_framed (edits_inside 1), ht.text_eq]

theorem Headless.rewrites {s : Bytes} (hs : Headless s) (hfront : Utf8.trailing s = 0) :
    Rewrites s 0 0 s := by
  have hclaims : FieldTags.claims s = [] := by
    rw [FieldTags.claims, hs.messageBlocks]
    rfl
  refine ⟨hfront, by rw [hs.messageBlocks]; rfl, by rw [hclaims]; rfl, ?_, ?_⟩
  · rw [hclaims, Edit.substitute_nil]
  · rw [Started, hs.messageBlocks]
    simp

theorem Quiet.part {a b : Nat} {s : Bytes} (hs : Quiet s) (hdepth : Depth s a b)
    (hfront : Utf8.trailing s = 0) : Part a b s 0 0 0 fun _ => s := by
  have hr := hs.headless.rewrites hfront
  refine ⟨hs.toSealed, hdepth, hfront, by rw [hs.fields]; rfl, hr.messages_eq, hr.total_eq,
    fun k => ?_, hr.started⟩
  rw [edits, hs.fields]
  exact hr.text_eq

theorem Framed.fieldsFrom_eq_nil {o t : Bytes} {i : Nat} (hf : Framed o t i)
    (hsign : ∀ b ∈ o, b ≠ Ascii.equals ∧ b ≠ Ascii.less) (u : Bytes) :
    fieldsFrom (o ++ [Ascii.leftBrace] ++ t ++ [Ascii.rightBrace] ++ u)
      (messageBlocks (o ++ [Ascii.leftBrace] ++ t ++ [Ascii.rightBrace])) 0
      (statementStarts (o ++ [Ascii.leftBrace] ++ t ++ [Ascii.rightBrace])) = [] := by
  refine FieldTags.fieldsFrom_eq_nil fun j hj => ?_
  have hlt : j < o.length + 1 + t.length + 1 := by
    rcases List.mem_cons.mp hj with rfl | hj
    · omega
    · have hj := (List.mem_filter.mp hj).2
      simp only [List.length_append, List.length_singleton, decide_eq_true_eq] at hj
      omega
  by_cases hhead : j ≤ o.length
  · right
    intro d hd
    have hdrop : (o ++ [Ascii.leftBrace] ++ t ++ [Ascii.rightBrace] ++ u).drop j =
        o.drop j ++ Ascii.leftBrace :: (t ++ [Ascii.rightBrace] ++ u) := by
      simp only [List.append_assoc, List.singleton_append]
      rw [List.drop_append_of_le_length hhead, List.cons_append]
    rw [hdrop, Declaration.front?_eq_none_of_break
      (fun b hb => hsign b (List.mem_of_mem_drop hb)) (by decide)] at hd
    simp at hd
  by_cases hbody : j < o.length + 1 + t.length
  · left
    rw [hf.messageBlocks_framed, List.any_cons, Bool.or_eq_true]
    left
    simp only [Block.containsOffset, Bool.and_eq_true, decide_eq_true_eq]
    omega
  · right
    have hend : j = (o ++ [Ascii.leftBrace] ++ t).length := by
      simp only [List.length_append, List.length_singleton]
      omega
    intro d hd
    rw [hend, List.append_assoc _ [Ascii.rightBrace], List.drop_left] at hd
    have hclose := Declaration.front?_eq_none_of_break (u := []) (c := Ascii.rightBrace)
      (by simp) (by decide) u
    rw [List.nil_append] at hclose
    rw [List.singleton_append, hclose] at hd
    simp at hd

theorem exists_events_rightBrace {s : Bytes} (hs : Mode.run .code s = .code) :
    ∃ es kind, eventsFrom .code 0 (s ++ [Ascii.rightBrace]) =
      es ++ [⟨kind, (s ++ [Ascii.rightBrace]).length - 1⟩] := by
  refine ⟨eventsFrom .code 0 s, .closeBrace, ?_⟩
  rw [eventsFrom_append, hs, List.length_append, List.length_singleton, Nat.add_sub_cancel,
    Nat.zero_add]
  rfl

theorem Framed.part {o t : Bytes} {i f m c : Nat} {q : Nat → Bytes} (hf : Framed o t i)
    (hfront : Utf8.trailing (o ++ [Ascii.leftBrace]) = 0) (hdepth : ∀ k, Depth o k k)
    (hsign : ∀ b ∈ o, b ≠ Ascii.equals ∧ b ≠ Ascii.less) (ht : Tail 0 t f m c q) (k : Nat) :
    Part k k (o ++ [Ascii.leftBrace] ++ t ++ [Ascii.rightBrace]) 0 (1 + m) (f + c)
      fun _ => o ++ [Ascii.leftBrace] ++ q 1 ++ [Ascii.rightBrace] := by
  have hr := hf.rewrites hfront ht
  have hnone := hf.fieldsFrom_eq_nil hsign
  have hfields : fields (o ++ [Ascii.leftBrace] ++ t ++ [Ascii.rightBrace]) = [] := by
    have := hnone []
    rwa [List.append_nil] at this
  have hbrace := (parted_leftBrace hf.before).code
  have hcode : Mode.run .code (o ++ [Ascii.leftBrace] ++ t) = .code := by
    rw [Mode.run_append, hbrace, hf.code]
  refine ⟨⟨hf.parted, hf.matched_framed, exists_events_rightBrace hcode,
    fun u => by rw [hnone, hfields]⟩, ?_, hr.front, by rw [hfields]; rfl, hr.messages_eq,
    hr.total_eq, fun j => ?_, hr.started⟩
  · have hopen := (hdepth k).append hf.before (depth_leftBrace k)
    exact (hopen.append hbrace (hf.depth.add (k + 1))).append hcode (depth_rightBrace k)
  · rw [edits, hfields]
    exact hr.text_eq

end FieldTags
