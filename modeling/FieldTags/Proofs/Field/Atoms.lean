import FieldTags.Proofs.Field.Parts
import FieldTags.Proofs.Field.Reading
import FieldTags.Proofs.Lexical.Atoms

/-! Parts given by their lexical units. The last unit completes an event and so seals the part; a
part without an opening brace has no head, and units between breaks have no field. -/
namespace FieldTags

def Headless (t : Bytes) : Prop := ∀ h, ¬ Head.InCode t h

theorem Headless.matched {t : Bytes} (ht : Headless t) : Matched t := fun h hh => absurd hh (ht h)

theorem Headless.messageBlocks {t : Bytes} (ht : Headless t) : messageBlocks t = [] := by
  rw [List.eq_nil_iff_forall_not_mem]
  intro b hb
  obtain ⟨h, hh, -, -⟩ := mem_messageBlocks_iff.mp hb
  exact ht h hh

namespace Atom

theorem exists_last {a : Atom} (ha : a.event?.isSome = true) :
    ∃ s c, a.text = s ++ [c] ∧ c < 0x80 ∧ Bytes.holdsOf isWord c = false := by
  cases a with
  | byte b =>
    refine ⟨[], b, rfl, ?_⟩
    simp only [event?, EventKind.inCode?] at ha
    split at ha
    · rename_i h
      subst h
      decide
    split at ha
    · rename_i h
      subst h
      decide
    split at ha
    · rename_i h
      subst h
      decide
    split at ha
    · rename_i h
      subst h
      decide
    · simp at ha
  | literal l => simp [event?] at ha
  | comment c =>
    cases c with
    | line content h => exact ⟨_, Ascii.newline, rfl, by decide⟩
    | block content h => exact ⟨_, Ascii.slash, rfl, by decide⟩

theorem depth {a : Atom} (ha : a.Plain) (hopen : a ≠ byte Ascii.leftBrace)
    (hclose : a ≠ byte Ascii.rightBrace) (k : Nat) : Depth a.text k k := by
  intro depth position es _
  rw [ha.scanned.events]
  cases he : a.event? with
  | none => rfl
  | some kind =>
    have hkind : kind ≠ .openBrace ∧ kind ≠ .closeBrace := by
      cases a with
      | byte b =>
        simp only [ne_eq, byte.injEq] at hopen hclose
        simp only [event?, EventKind.inCode?, hopen, hclose, if_false] at he
        split at he
        · obtain rfl := Option.some.inj he
          decide
        split at he
        · obtain rfl := Option.some.inj he
          decide
        · simp at he
      | literal l => simp [event?] at he
      | comment c =>
        obtain rfl := Option.some.inj he
        cases c <;> exact ⟨by simp [Comment.event], by simp [Comment.event]⟩
    cases kind with
    | openBrace => exact absurd rfl hkind.1
    | closeBrace => exact absurd rfl hkind.2
    | semicolon => rfl
    | lineBreak => rfl
    | commentEnd => rfl

end Atom

theorem depth_leftBrace (k : Nat) : Depth [Ascii.leftBrace] k (k + 1) := fun _ _ _ _ => rfl

theorem depth_rightBrace (k : Nat) : Depth [Ascii.rightBrace] (k + 1) k := by
  intro depth position es hd
  have hgt : ¬ depth + (k + 1) ≤ 1 := by omega
  change closing? (depth + (k + 1)) (⟨.closeBrace, position⟩ :: es) = _
  rw [closing?]
  simp only [hgt, if_false]
  rfl

namespace Atoms

theorem depth {as : Atoms} (has : Plain as) (hopen : .byte Ascii.leftBrace ∉ as)
    (hclose : .byte Ascii.rightBrace ∉ as) (k : Nat) : Depth (text as) k k := by
  induction as with
  | nil => exact Depth.nil k
  | cons a as ih =>
    obtain ⟨ha, hrest⟩ := List.forall_mem_cons.mp has
    obtain ⟨hopen, hopens⟩ := not_or.mp (List.mem_cons.not.mp hopen)
    obtain ⟨hclose, hcloses⟩ := not_or.mp (List.mem_cons.not.mp hclose)
    exact Depth.append (Atom.Plain.scanned ha).run
      (Atom.depth ha (Ne.symm hopen) (Ne.symm hclose) k) (ih hrest hopens hcloses)

theorem headless {as : Atoms} (has : Plain as) (hopen : .byte Ascii.leftBrace ∉ as) :
    Headless (text as) := by
  rintro h ⟨hh, hcode⟩
  obtain ⟨bs, cs, rfl, -⟩ :=
    exists_of_leftBrace has (Head.getElem?_lbrace hh) (Head.run_code_lbrace hh hcode)
  simp at hopen

theorem parted_byte {as : Atoms} {c : UInt8} (has : Plain (as ++ [.byte c]))
    (hc : c = Ascii.semicolon ∨ c = Ascii.leftBrace ∨ c = Ascii.rightBrace) :
    Parted (text (as ++ [.byte c])) := by
  have hstop : Head.isStop c = true ∧ Bytes.holdsOf isWord c = false := by
    rcases hc with rfl | rfl | rfl <;> decide
  have htext : text (as ++ [.byte c]) = text as ++ [c] := by simp [Atom.text]
  have hcode := run_text has
  rw [htext] at hcode ⊢
  exact Parted.of_stop hstop.1 hstop.2 hcode

theorem parted_line {as : Atoms} {a : Atom} (has : Plain (as ++ [a]))
    (ha : a.event?.isSome = true) (hm : .byte 0x6D ∉ as ++ [a]) : Parted (text (as ++ [a])) := by
  obtain ⟨s, c, hsc, hascii, hword⟩ := a.exists_last ha
  refine ⟨run_text has, ⟨text as ++ s, c, by simp [hsc], hascii, hword⟩, fun i hi u => ?_⟩
  obtain ⟨bs, b, cs, hsplit, rfl⟩ := exists_of_codeMask has hi
  have hb : 0x6D ≠ b := by
    rintro rfl
    exact hm (by simp [hsplit])
  have hnone : ∀ v, Head.length? (b :: v) = none := by
    intro v
    have hbegin : Head.keyword.isPrefixOf (b :: v) = false := by
      change (0x6D == b && _) = false
      rw [beq_eq_false_iff_ne.mpr hb, Bool.false_and]
    rw [Head.length?, hbegin]
    rfl
  rw [hsplit]
  simp only [text_append, text_cons, List.drop_left, Atom.text, List.cons_append, hnone]

theorem exists_events {as : Atoms} {a : Atom} (has : Plain (as ++ [a]))
    (ha : a.event?.isSome = true) :
    ∃ es kind, eventsFrom .code 0 (text (as ++ [a])) =
      es ++ [⟨kind, (text (as ++ [a])).length - 1⟩] := by
  obtain ⟨kind, hkind⟩ := Option.isSome_iff_exists.mp ha
  have hplain := has a (by simp)
  have hpos := List.length_pos_of_ne_nil a.text_ne_nil
  refine ⟨eventsFrom .code 0 (text as), kind, ?_⟩
  rw [text_append, eventsFrom_append, run_text fun b hb => has b (by simp [hb]), text_cons,
    text_nil, List.append_nil, (Atom.Plain.scanned hplain).events, hkind]
  simp only [Option.map_some, Option.toList_some, List.length_append, Nat.zero_add]

end Atoms

/-- No declaration is read at the front of the text, whatever follows, save an option. -/
def Fieldless (t : Bytes) : Prop :=
  ∀ u d, Declaration.front? (t ++ u) = some d → d.type = Field.optionKeyword

theorem fieldsFrom_eq_nil {body : Bytes} {nested : List Block} {free : Nat} {starts : List Nat}
    (h : ∀ k ∈ starts, nested.any (·.containsOffset k) = true ∨
      ∀ d, Declaration.front? (body.drop k) = some d → d.type = Field.optionKeyword) :
    fieldsFrom body nested free starts = [] := by
  induction starts with
  | nil => rfl
  | cons start starts ih =>
    have ih := ih fun k hk => h k (by simp [hk])
    rw [fieldsFrom]
    split
    · exact ih
    · rename_i hhere
      cases hd : Declaration.front? (body.drop start) with
      | none => exact ih
      | some d =>
        have htype : d.type = Field.optionKeyword := by
          rcases h start (by simp) with hnested | htype
          · exact absurd (Or.inr hnested) hhere
          · exact htype d hd
        simp only [htype, if_true]
        exact ih

/-- A part with no message and no field. -/
structure Quiet (s : Bytes) : Prop extends Sealed s where
  headless : Headless s
  fields : fields s = []

theorem Atoms.quiet {as : Atoms} {a : Atom} (has : Atoms.Plain (as ++ [a]))
    (ha : a.event?.isSome = true) (hparted : Parted (Atoms.text (as ++ [a])))
    (hheadless : Headless (Atoms.text (as ++ [a])))
    (hfields : ∀ bs cs, as ++ [a] = bs ++ cs → cs ≠ [] →
      (bs = [] ∨ ∃ ds b, bs = ds ++ [b] ∧ b.event?.isSome = true) → Fieldless (Atoms.text cs)) :
    Quiet (Atoms.text (as ++ [a])) := by
  have hnone : ∀ u, fieldsFrom (Atoms.text (as ++ [a]) ++ u)
      (messageBlocks (Atoms.text (as ++ [a]))) 0 (statementStarts (Atoms.text (as ++ [a]))) =
        [] := by
    intro u
    refine fieldsFrom_eq_nil fun k hk => Or.inr fun d hd => ?_
    obtain ⟨bs, cs, hsplit, rfl, hstart⟩ := Atoms.mem_statementStarts_text has hk
    rw [hsplit, Atoms.text_append, List.append_assoc, List.drop_left] at hd
    refine hfields bs cs hsplit ?_ ?_ u d hd
    · rintro rfl
      rcases hstart with rfl | ⟨h, -⟩
      · simp at hsplit
      · exact h rfl
    · exact hstart.imp id (·.2)
  have hfields : fields (Atoms.text (as ++ [a])) = [] := by
    have := hnone []
    rwa [List.append_nil] at this
  exact ⟨⟨hparted, hheadless.matched, Atoms.exists_events has ha,
    fun u => by rw [hnone, hfields]⟩, hheadless, hfields⟩

/-- Before an equals sign a literal or a comment ends the reading of a declaration, as some bytes
do. -/
def Atom.Breaks : Atom → Prop
  | byte b => Declaration.isBreak b = true
  | _ => True

theorem Atom.Breaks.exists_cons {a : Atom} (ha : a.Breaks) :
    ∃ c y, a.text = c :: y ∧ Declaration.isBreak c = true := by
  cases a with
  | byte b => exact ⟨b, [], rfl, ha⟩
  | literal l =>
    refine ⟨l.quote.byte, _, rfl, ?_⟩
    cases l.quote <;> decide
  | comment c => cases c <;> exact ⟨Ascii.slash, _, rfl, by decide⟩

/-- Units none of which is an equals sign or an angle. -/
def Atoms.Unsigned (as : Atoms) : Prop :=
  ∀ b, .byte b ∈ as → b ≠ Ascii.equals ∧ b ≠ Ascii.less

namespace Atoms

theorem exists_break {as : Atoms} (has : Unsigned as) (h : ∃ a ∈ as, a.Breaks) :
    ∃ u c y, text as = u ++ c :: y ∧ (∀ b ∈ u, b ≠ Ascii.equals ∧ b ≠ Ascii.less) ∧
      Declaration.isBreak c = true := by
  induction as with
  | nil => simp at h
  | cons a as ih =>
    by_cases ha : a.Breaks
    · obtain ⟨c, y, hcy, hc⟩ := ha.exists_cons
      exact ⟨[], c, y ++ text as, by simp [hcy], by simp, hc⟩
    · obtain ⟨b, rfl⟩ : ∃ b, a = .byte b := by
        cases a with
        | byte b => exact ⟨b, rfl⟩
        | literal l => exact absurd trivial ha
        | comment c => exact absurd trivial ha
      have hlater : ∃ a ∈ as, a.Breaks := by
        obtain ⟨x, hx, hbreak⟩ := h
        rcases List.mem_cons.mp hx with rfl | hx
        · exact absurd hbreak ha
        · exact ⟨x, hx, hbreak⟩
      obtain ⟨u, c, y, hu, hplain, hc⟩ := ih (fun x hx => has x (by simp [hx])) hlater
      refine ⟨b :: u, c, y, by simp [hu, Atom.text], fun x hx => ?_, hc⟩
      rcases List.mem_cons.mp hx with rfl | hx
      · exact has _ (by simp)
      · exact hplain x hx

theorem fieldless_of_breaks {as : Atoms} (has : Unsigned as) (h : ∃ a ∈ as, a.Breaks) :
    Fieldless (text as) := by
  obtain ⟨u, c, y, hu, hplain, hc⟩ := exists_break has h
  intro v d hd
  rw [hu, List.append_assoc, List.cons_append, Declaration.front?_eq_none_of_break hplain hc] at hd
  simp at hd

theorem mem_of_append {as bs cs : Atoms} {a : Atom} (h : as ++ [a] = bs ++ cs) (hcs : cs ≠ []) :
    a ∈ cs := by
  rcases List.eq_nil_or_concat' cs with rfl | ⟨ds, x, rfl⟩
  · exact absurd rfl hcs
  · rw [← List.append_assoc] at h
    have hx : [a] = [x] := List.append_inj_right' h rfl
    rw [← List.singleton_inj.mp hx]
    simp

theorem quiet_of_unsigned {as : Atoms} {a : Atom} (has : Plain (as ++ [a]))
    (ha : a.event?.isSome = true) (hbreak : a.Breaks) (hparted : Parted (text (as ++ [a])))
    (hheadless : Headless (text (as ++ [a]))) (hsign : Unsigned (as ++ [a])) :
    Quiet (text (as ++ [a])) := by
  refine quiet has ha hparted hheadless fun bs cs hsplit hcs _ => ?_
  refine fieldless_of_breaks (fun b hb => hsign b ?_) ⟨a, mem_of_append hsplit hcs, hbreak⟩
  rw [hsplit]
  exact List.mem_append_right _ hb

theorem quiet_of_equals {u : Bytes} {post : Atoms}
    (has : Plain (ofBytes u ++ .byte Ascii.equals :: post ++ [.byte Ascii.semicolon]))
    (hopen : .byte Ascii.leftBrace ∉ ofBytes u ++ post) (hsign : Unsigned post)
    (hlead : ∀ k, (k = 0 ∨ ∃ b, u[k - 1]? = some b ∧ (EventKind.inCode? b).isSome = true) →
      ∀ y, Fieldless (u.drop k ++ Ascii.equals :: y)) :
    Quiet (text (ofBytes u ++ .byte Ascii.equals :: post ++ [.byte Ascii.semicolon])) := by
  refine quiet has rfl (parted_byte has (Or.inl rfl)) (headless has ?_)
    fun bs cs hsplit hcs hstart => ?_
  · simp only [List.mem_append, List.mem_cons, List.not_mem_nil] at hopen ⊢
    rintro ((h | h | h) | h | h)
    · exact hopen (Or.inl h)
    · exact absurd (Atom.byte.inj h) (by decide)
    · exact hopen (Or.inr h)
    · exact absurd (Atom.byte.inj h) (by decide)
    · exact h
  rw [List.append_assoc, List.cons_append] at hsplit
  have hcases : (∃ w, ofBytes u = bs ++ w ∧
      cs = w ++ .byte Ascii.equals :: (post ++ [.byte Ascii.semicolon])) ∨
      ∃ w, post ++ [.byte Ascii.semicolon] = w ++ cs := by
    rcases List.append_eq_append_iff.mp hsplit with ⟨w, hbs, hw⟩ | ⟨w, hu, hw⟩
    · cases w with
      | nil => exact Or.inl ⟨[], by rw [hbs, List.append_nil, List.append_nil], hw.symm⟩
      | cons x w => exact Or.inr ⟨w, (List.cons.inj hw).2⟩
    · exact Or.inl ⟨w, hu, hw⟩
  rcases hcases with ⟨w, hu, rfl⟩ | ⟨w, hw⟩
  · obtain ⟨v, r, rfl, rfl, rfl⟩ := List.map_eq_append_iff.mp hu
    have hfields := hlead v.length ?_ (text (post ++ [.byte Ascii.semicolon]))
    · rw [List.drop_left] at hfields
      rwa [text_append, text_cons, ← ofBytes, text_ofBytes]
    · rcases hstart with h | ⟨ds, b, hv, hb⟩
      · exact Or.inl (by simpa using h)
      · obtain ⟨l, m, rfl, -, hm⟩ := List.map_eq_append_iff.mp hv
        obtain ⟨x, rfl, rfl⟩ := List.map_eq_singleton_iff.mp hm
        exact Or.inr ⟨x, by simp, hb⟩
  · refine fieldless_of_breaks (fun b hb => ?_)
      ⟨.byte Ascii.semicolon, mem_of_append hw hcs, by rfl⟩
    have hmem : Atom.byte b ∈ post ++ [.byte Ascii.semicolon] := by
      rw [hw]
      exact List.mem_append_right _ hb
    rcases List.mem_append.mp hmem with h | h
    · exact hsign b h
    · rw [Atom.byte.inj (List.mem_singleton.mp h)]
      decide

end Atoms

end FieldTags
