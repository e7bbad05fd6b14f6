import FieldTags.Proofs.Lexical.Scan
import Mathlib.Data.List.Chain
import Mathlib.Data.List.Infix

/-! Comments and strings to a scan that meets them in code. It leaves code with their first bytes and
stays outside up to the byte that closes them, and that byte leads it back. -/
namespace FieldTags

/-- What may stand between two quotes: bytes other than the quote, and each backslash together with the
byte after it. -/
inductive Quote.Content (q : Quote) : Bytes → Prop
  | nil : Content q []
  | char {b : UInt8} {s : Bytes} (hb : b ≠ q.byte ∧ b ≠ Ascii.backslash) (hs : Content q s) :
    Content q (b :: s)
  | escape (b : UInt8) {s : Bytes} (hs : Content q s) : Content q (Ascii.backslash :: b :: s)

namespace Mode

/-- From the mode `m` the text stays outside code and completes nothing. -/
def Silent : Mode → Bytes → Prop
  | m, [] => m.isCode = false
  | m, b :: t => m.isCode = false ∧ m.event? b = none ∧ Silent (m.next b) t

theorem Silent.append {m : Mode} {s t : Bytes} (hs : Silent m s) (ht : Silent (m.run s) t) :
    Silent m (s ++ t) := by
  induction s generalizing m with
  | nil => exact ht
  | cons b s ih => exact ⟨hs.1, hs.2.1, ih hs.2.2 ht⟩

theorem Silent.isCode_run_left {m : Mode} {s p q : Bytes} (h : Silent m s) (hs : s = p ++ q) :
    (m.run p).isCode = false := by
  induction p generalizing m s with
  | nil =>
    cases s with
    | nil => exact h
    | cons b s => exact h.1
  | cons b p ih =>
    subst hs
    exact ih h.2.2 rfl

theorem Silent.events {m : Mode} {s : Bytes} (h : Silent m s) (position : Nat) :
    eventsFrom m position s = [] := by
  induction s generalizing m position with
  | nil => rfl
  | cons b s ih =>
    rw [eventsFrom, h.2.1, ih h.2.2]
    rfl

theorem Silent.mask_append {m : Mode} {s : Bytes} (h : Silent m s) (t : Bytes) :
    codeMaskFrom m (s ++ t) = List.replicate s.length false ++ codeMaskFrom (m.run s) t := by
  induction s generalizing m with
  | nil => rfl
  | cons b s ih =>
    rw [List.cons_append, codeMaskFrom, shows_of_not_isCode h.1, ih h.2.2]
    rfl

theorem Silent.mask {m : Mode} {s : Bytes} (h : Silent m s) (t : Bytes) {i : Nat}
    (hi : i < s.length) : (codeMaskFrom m (s ++ t))[i]? = some false := by
  rw [h.mask_append, List.getElem?_append_left (by simpa using hi), List.getElem?_replicate,
    if_pos hi]

theorem silent_content {q : Quote} {s : Bytes} (h : q.Content s) :
    Silent (.quoted q) s ∧ run (.quoted q) s = .quoted q := by
  induction h with
  | nil => exact ⟨rfl, rfl⟩
  | @char b s hb hs ih =>
    have hn : next (.quoted q) b = .quoted q := by simp [next, hb.1, hb.2]
    refine ⟨⟨rfl, rfl, ?_⟩, ?_⟩
    · rw [hn]
      exact ih.1
    · rw [run_cons, hn]
      exact ih.2
  | escape b hs ih =>
    have hn : next (.quoted q) Ascii.backslash = .escaped q := by simp [next]
    refine ⟨⟨rfl, rfl, ?_⟩, ?_⟩
    · rw [hn]
      exact ⟨rfl, rfl, ih.1⟩
    · rw [run_cons, hn]
      exact ih.2

theorem silent_dangling {q : Quote} {s : Bytes} (h : q.Content s) :
    Silent (.quoted q) (s ++ [Ascii.backslash]) := by
  obtain ⟨hsilent, hrun⟩ := silent_content h
  refine hsilent.append ?_
  rw [hrun]
  have hn : next (.quoted q) Ascii.backslash = .escaped q := by simp [next]
  refine ⟨rfl, rfl, ?_⟩
  rw [hn]
  rfl

theorem silent_line {content : Bytes} (h : Ascii.newline ∉ content) :
    Silent .lineComment content ∧ run .lineComment content = .lineComment := by
  induction content with
  | nil => exact ⟨rfl, rfl⟩
  | cons b content ih =>
    have hb : b ≠ Ascii.newline := fun hb => h (by simp [hb])
    have ih := ih fun hc => h (List.mem_cons_of_mem _ hc)
    have hn : next .lineComment b = .lineComment := by simp [next, hb]
    refine ⟨⟨rfl, by simp [event?, hb], ?_⟩, ?_⟩
    · rw [hn]
      exact ih.1
    · rw [run_cons, hn]
      exact ih.2

theorem silent_block {content : Bytes} {m : Mode}
    (hm : m = .blockComment ∨ m = .star ∧ content.head? ≠ some Ascii.slash)
    (h : content.IsChain fun b c => b = Ascii.asterisk → c ≠ Ascii.slash) :
    Silent m content ∧ (run m content = .blockComment ∨ run m content = .star) := by
  induction content generalizing m with
  | nil =>
    rcases hm with rfl | ⟨rfl, -⟩
    · exact ⟨rfl, Or.inl rfl⟩
    · exact ⟨rfl, Or.inr rfl⟩
  | cons b content ih =>
    have htail := h.tail
    have hevent : m.event? b = none := by
      rcases hm with rfl | ⟨rfl, hhead⟩
      · rfl
      · have hb : b ≠ Ascii.slash := fun hb => hhead (by simp [hb])
        simp [event?, hb]
    have hnext : m.next b = if b = Ascii.asterisk then .star else .blockComment := by
      rcases hm with rfl | ⟨rfl, hhead⟩
      · simp [next]
      · have hb : b ≠ Ascii.slash := fun hb => hhead (by simp [hb])
        simp [next, hb]
    have hcode : m.isCode = false := by
      rcases hm with rfl | ⟨rfl, -⟩ <;> rfl
    have hlater : m.next b = .blockComment ∨
        m.next b = .star ∧ content.head? ≠ some Ascii.slash := by
      by_cases hstar : b = Ascii.asterisk
      · right
        refine ⟨by rw [hnext, if_pos hstar], ?_⟩
        cases content with
        | nil => simp
        | cons c content =>
          have hc := (List.isChain_cons_cons.mp h).1 hstar
          simpa using hc
      · left
        rw [hnext, if_neg hstar]
    obtain ⟨hsilent, hrun⟩ := ih hlater htail
    exact ⟨⟨hcode, hevent, hsilent⟩, hrun⟩

/-- A text that a scan leaves code with and does not come back in. -/
structure Outside (u : Bytes) : Prop where
  run_ne : ∀ p q, u = p ++ q → p ≠ [] → run .code p ≠ .code
  events : ∀ position, eventsFrom .code position u = []
  mask : ∀ t, codeMaskFrom .code (u ++ t) =
    List.replicate u.length false ++ codeMaskFrom (run .code u) t

theorem Outside.append {o s : Bytes} (ho : Outside o) (hs : Silent (run .code o) s) :
    Outside (o ++ s) := by
  refine ⟨fun p q hpq hp hcode => ?_, fun position => ?_, fun t => ?_⟩
  · rcases List.append_eq_append_iff.mp hpq with ⟨r, rfl, hr⟩ | ⟨r, hr, -⟩
    · have hout := hs.isCode_run_left hr
      rw [run_append] at hcode
      rw [hcode] at hout
      simp [isCode] at hout
    · exact ho.run_ne p r hr hp hcode
  · rw [eventsFrom_append, ho.events, hs.events]
    rfl
  · rw [List.append_assoc, ho.mask, hs.mask_append, run_append, ← List.append_assoc,
      List.replicate_append_replicate, List.length_append]

theorem outside_quote (q : Quote) : Outside [q.byte] := by
  refine ⟨fun p r hpr hp => ?_, fun position => ?_, fun t => ?_⟩
  · have hmem : p ∈ [q.byte].inits := (List.mem_inits _ _).mpr ⟨r, hpr.symm⟩
    obtain rfl : p = [q.byte] := by simpa [hp] using hmem
    cases q <;> decide
  · cases q <;> rfl
  · cases q <;> rfl

theorem run_opening_quote (q : Quote) : run .code [q.byte] = .quoted q := by
  cases q <;> rfl

theorem outside_slash {c : UInt8} (hc : c = Ascii.slash ∨ c = Ascii.asterisk) :
    Outside [Ascii.slash, c] := by
  refine ⟨fun p r hpr hp => ?_, fun position => ?_, fun t => ?_⟩
  · have hmem : p ∈ [Ascii.slash, c].inits := (List.mem_inits _ _).mpr ⟨r, hpr.symm⟩
    have hcases : p = [Ascii.slash] ∨ p = [Ascii.slash, c] := by simpa [hp] using hmem
    rcases hcases with rfl | rfl
    · decide
    · rcases hc with rfl | rfl <;> decide
  · rcases hc with rfl | rfl <;> rfl
  · rcases hc with rfl | rfl <;> rfl

theorem outside_content {q : Quote} {s : Bytes} (h : q.Content s) : Outside ([q.byte] ++ s) := by
  refine (outside_quote q).append ?_
  rw [run_opening_quote]
  exact (silent_content h).1

theorem outside_dangling {q : Quote} {s : Bytes} (h : q.Content s) :
    Outside ([q.byte] ++ (s ++ [Ascii.backslash])) := by
  refine (outside_quote q).append ?_
  rw [run_opening_quote]
  exact silent_dangling h

theorem run_quote {q : Quote} {s : Bytes} (h : q.Content s) :
    run .code ([q.byte] ++ s) = .quoted q := by
  rw [run_append, run_opening_quote, (silent_content h).2]

theorem outside_line {s : Bytes} (h : Ascii.newline ∉ s) :
    Outside ([Ascii.slash, Ascii.slash] ++ s) :=
  (outside_slash (.inl rfl)).append (silent_line h).1

theorem run_line {s : Bytes} (h : Ascii.newline ∉ s) :
    run .code ([Ascii.slash, Ascii.slash] ++ s) = .lineComment := by
  rw [run_append]
  exact (silent_line h).2

theorem outside_block {s : Bytes}
    (h : s.IsChain fun b c => b = Ascii.asterisk → c ≠ Ascii.slash) :
    Outside ([Ascii.slash, Ascii.asterisk] ++ s) :=
  (outside_slash (.inr rfl)).append (silent_block (.inl rfl) h).1

theorem outside_star {s : Bytes}
    (h : s.IsChain fun b c => b = Ascii.asterisk → c ≠ Ascii.slash) :
    Outside ([Ascii.slash, Ascii.asterisk] ++ (s ++ [Ascii.asterisk])) := by
  obtain ⟨hsilent, hrun⟩ := silent_block (m := .blockComment) (.inl rfl) h
  refine (outside_slash (.inr rfl)).append (hsilent.append ?_)
  rcases hrun with hrun | hrun <;> rw [hrun] <;> exact ⟨rfl, rfl, rfl⟩

theorem run_block {s : Bytes}
    (h : s.IsChain fun b c => b = Ascii.asterisk → c ≠ Ascii.slash) :
    run .code ([Ascii.slash, Ascii.asterisk] ++ (s ++ [Ascii.asterisk])) = .star := by
  rw [run_append, run_append]
  rcases (silent_block (m := .blockComment) (.inl rfl) h).2 with hrun | hrun
  · change run (run .blockComment s) _ = _
    rw [hrun]
    rfl
  · change run (run .blockComment s) _ = _
    rw [hrun]
    rfl

/-- A scan leaves code with `u`, and the byte `z` behind it, which is no code, leads it back. -/
structure Closes (u : Bytes) (z : UInt8) (kind : Option EventKind) : Prop where
  outside : Outside u
  next : (run .code u).next z = .code
  event : (run .code u).event? z = kind
  shows : ∀ following, (run .code u).shows z following = false

section
variable {u : Bytes} {z : UInt8} {kind : Option EventKind}

theorem Closes.run (h : Closes u z kind) : Mode.run .code (u ++ [z]) = .code := by
  rw [run_append]
  exact h.next

theorem Closes.run_ne (h : Closes u z kind) {p q : Bytes} (hpq : u ++ [z] = p ++ q) (hp : p ≠ [])
    (hq : q ≠ []) : Mode.run .code p ≠ .code := by
  rw [← List.dropLast_append_getLast hq, ← List.append_assoc] at hpq
  exact h.outside.run_ne p q.dropLast (List.append_inj_left' hpq rfl) hp

theorem Closes.events (h : Closes u z kind) (position : Nat) (t : Bytes) :
    eventsFrom .code position (u ++ [z] ++ t) =
      (kind.map (⟨·, position + u.length⟩)).toList ++
        eventsFrom .code (position + u.length + 1) t := by
  rw [List.append_assoc, eventsFrom_append, h.outside.events, List.singleton_append, eventsFrom,
    h.event, h.next]
  rfl

theorem Closes.mask (h : Closes u z kind) (t : Bytes) : codeMaskFrom .code (u ++ [z] ++ t) =
    List.replicate (u.length + 1) false ++ codeMaskFrom .code t := by
  rw [List.append_assoc, h.outside.mask, List.singleton_append, codeMaskFrom, h.next, h.shows,
    List.replicate_succ', List.append_assoc, List.singleton_append]

end

theorem closes_quote {q : Quote} {s : Bytes} (h : q.Content s) :
    Closes ([q.byte] ++ s) q.byte none := by
  refine ⟨outside_content h, ?_, ?_, fun following => ?_⟩ <;> rw [run_quote h]
  · cases q <;> rfl
  · rfl
  · rfl

theorem closes_line {s : Bytes} (h : Ascii.newline ∉ s) :
    Closes ([Ascii.slash, Ascii.slash] ++ s) Ascii.newline (some .lineBreak) := by
  refine ⟨outside_line h, ?_, ?_, fun following => ?_⟩ <;> rw [run_line h] <;> rfl

theorem closes_block {s : Bytes}
    (h : s.IsChain fun b c => b = Ascii.asterisk → c ≠ Ascii.slash) :
    Closes ([Ascii.slash, Ascii.asterisk] ++ (s ++ [Ascii.asterisk])) Ascii.slash
      (some .commentEnd) := by
  refine ⟨outside_star h, ?_, ?_, fun following => ?_⟩ <;> rw [run_block h] <;> rfl

end Mode

end FieldTags
