import FieldTags.Message.Blocks
import FieldTags.Proofs.Message.Heads

/-! Message blocks in the order of the text. No two heads overlap, so blocks come in ascending order
of their opening braces, and each of these is code to a scan of the whole text. -/
namespace FieldTags

theorem UInt8.forall_ascii {P : UInt8 → Prop} (h : ∀ n < 128, P (UInt8.ofNat n)) {b : UInt8}
    (hb : b < 0x80) : P b := by
  have hn := h b.toNat (UInt8.lt_iff_toNat_lt.mp hb)
  rwa [UInt8.ofNat_toNat] at hn

namespace Ascii

theorem ascii_of_isNameByte {b : UInt8} (h : isNameByte b = true) : b < 0x80 := by
  simp only [isNameByte, isNameStart, isDigit, Bool.or_eq_true, Bool.and_eq_true,
    decide_eq_true_eq, beq_iff_eq, UInt8.le_iff_toNat_le] at h
  rw [UInt8.lt_iff_toNat_lt]
  rcases h with ((⟨-, h⟩ | ⟨-, h⟩) | rfl) | ⟨-, h⟩
  · exact Nat.lt_of_le_of_lt h (by decide)
  · exact Nat.lt_of_le_of_lt h (by decide)
  · decide
  · exact Nat.lt_of_le_of_lt h (by decide)

theorem isNameByte_class {b : UInt8} (h : isNameByte b = true) :
    Bytes.holdsOf isBlank b = false ∧ Bytes.holdsOf isWord b = true := by
  have hd : ∀ n < 128, isNameByte (UInt8.ofNat n) = true →
      Bytes.holdsOf isBlank (UInt8.ofNat n) = false ∧
        Bytes.holdsOf isWord (UInt8.ofNat n) = true := by decide
  exact @UInt8.forall_ascii (fun b => isNameByte b = true → Bytes.holdsOf isBlank b = false ∧
    Bytes.holdsOf isWord b = true) hd b (ascii_of_isNameByte h) h

end Ascii

namespace Head
open Utf8 Bytes

theorem run_isBlank_of_isNameByte {b : UInt8} (h : Ascii.isNameByte b = true) (t : Bytes) :
    Bytes.run isBlank (b :: t) = 0 := by
  rw [run_cons_ascii (Ascii.ascii_of_isNameByte h), (Ascii.isNameByte_class h).1]
  rfl

theorem isNameByte_of_lt_nameLength {t : Bytes} {i : Nat} (hi : i < nameLength t) :
    ∃ b, t[i]? = some b ∧ Ascii.isNameByte b = true := by
  cases t with
  | nil => simp [nameLength] at hi
  | cons x t =>
    cases hx : Ascii.isNameStart x with
    | false => simp [nameLength, hx] at hi
    | true =>
      cases i with
      | zero => exact ⟨x, rfl, by simp [Ascii.isNameByte, hx]⟩
      | succ i =>
        simp only [nameLength, hx, if_true] at hi
        have hlt : i < (t.takeWhile Ascii.isNameByte).length := by omega
        refine ⟨(t.takeWhile Ascii.isNameByte)[i], ?_, ?_⟩
        · have htake :=
            List.IsPrefix.getElem (List.takeWhile_prefix (l := t) Ascii.isNameByte) hlt
          rw [List.getElem?_cons_succ, htake, List.getElem?_eq_getElem]
        · exact List.all_eq_true.mp List.all_takeWhile _ (List.getElem_mem hlt)

/-- Where the name of a head is the keyword, the rest leaves no gap or no name for a second head. -/
theorem drop_run_ne_keyword {r q : Bytes} (hstop : restStop r = r.length)
    (hgap : 0 < Bytes.run isBlank q) (hname : 0 < nameLength (q.drop (Bytes.run isBlank q))) :
    r.drop (Bytes.run isBlank r) ≠ keyword ++ q := by
  intro hq
  cases q with
  | nil => simp [Bytes.run, runAfter] at hgap
  | cons x q =>
    cases hx : Ascii.isNameByte x with
    | true =>
      rw [run_isBlank_of_isNameByte hx] at hgap
      omega
    | false =>
      have hseven : nameLength (r.drop (Bytes.run isBlank r)) = keyword.length := by
        have hrest : (x :: q).takeWhile Ascii.isNameByte = [] := by simp [hx]
        rw [hq]
        change 1 + ((keyword.tail ++ (x :: q)).takeWhile Ascii.isNameByte).length = _
        rw [List.takeWhile_append_of_pos (by decide +kernel), hrest]
        rfl
      have hdq : r.drop (Bytes.run isBlank r + keyword.length) = x :: q := by
        rw [← List.drop_drop, hq, List.drop_left]
      have hlen : (x :: q).length = r.length - (Bytes.run isBlank r + keyword.length) := by
        rw [← hdq, List.length_drop]
      simp only [restStop, hseven, hdq] at hstop
      rw [List.drop_eq_nil_of_le (by omega)] at hname
      exact absurd hname (by decide)

/-- In the bytes of a head before its brace the keyword cannot begin a second head. -/
theorem not_mayStart_of_lt {s : Bytes} {n d k : Nat} (hs : ∀ b ∈ s, isStop b = false)
    (hn : length? (s ++ [Ascii.leftBrace]) = some n) (hd : 0 < d) (hds : d < s.length)
    (hk : length? (s.drop d ++ [Ascii.leftBrace]) = some k) :
    ∃ b, s[d - 1]? = some b ∧ Ascii.isNameByte b = true := by
  obtain ⟨r, rfl, hgap, hname, hstop⟩ := length?_eq_some_drop hs hn
  have hdrop : ∀ b ∈ (keyword ++ r).drop d, isStop b = false := fun b hb =>
    hs b (List.mem_of_mem_drop hb)
  obtain ⟨q, hq, hqgap, hqname, -⟩ := length?_eq_some_drop hdrop hk
  have hm : (keyword ++ r)[d]? = some 0x6D := by
    rw [← Nat.add_zero d, ← List.getElem?_drop, hq]
    rfl
  by_cases hkey : d < keyword.length
  · have hno : ∀ d < keyword.length, 0 < d → keyword[d]? ≠ some 0x6D := by
      decide +kernel
    rw [List.getElem?_append_left hkey] at hm
    exact absurd hm (hno d hkey hd)
  obtain ⟨e, rfl⟩ : ∃ e, d = keyword.length + e := ⟨d - keyword.length, by omega⟩
  rw [List.getElem?_append_right (by omega), Nat.add_sub_cancel_left] at hm
  rw [← List.drop_drop, List.drop_left] at hq
  have hblank : holdsOf isBlank 0x6D = false := by decide
  have hget : ∀ i j, r[i + j]? = (r.drop i)[j]? := fun i j => List.getElem?_drop.symm
  have hne := drop_run_ne_keyword hstop hqgap hqname
  simp only [restStop] at hstop
  generalize hg : Bytes.run isBlank r = g at *
  by_cases heg : e < g
  · have := holdsOf_of_lt_run (by rw [hg]; exact heg) hm (by decide)
    rw [hblank] at this
    simp at this
  obtain ⟨i, rfl⟩ : ∃ i, e = g + i := ⟨e - g, by omega⟩
  cases i with
  | zero => exact absurd hq hne
  | succ i =>
    by_cases hin : i < nameLength (r.drop g)
    · -- inside the name or at its end: a name byte stands before
      obtain ⟨b, hb, hbyte⟩ := isNameByte_of_lt_nameLength hin
      refine ⟨b, ?_, hbyte⟩
      rw [← hb, ← hget, List.getElem?_append_right (by omega)]
      congr 1
      omega
    · have hlt : i + 1 - nameLength (r.drop g) <
          Bytes.run isBlank (r.drop (g + nameLength (r.drop g))) := by
        simp only [List.length_append] at hds
        omega
      have hmm : (r.drop (g + nameLength (r.drop g)))[i + 1 - nameLength (r.drop g)]? =
          some 0x6D := by
        rw [← hget, ← hm]
        congr 1
        omega
      have := holdsOf_of_lt_run hlt hmm (by decide)
      rw [hblank] at this
      simp at this

theorem getElem?_wordMayStart_succ {t : Bytes} {i : Nat} {b : UInt8} (hb : t[i]? = some b)
    (ha : b < 0x80) : t.wordMayStart[i + 1]? = some (!holdsOf isWord b) := by
  rw [wordMayStart, List.getElem?_cons_succ, List.getElem?_map, marks_ascii hb ha]
  rfl

theorem exists_of_mem_all {t : Bytes} {h : Head} (hh : h ∈ all t) :
    ∃ s r, t.drop h.start = s ++ Ascii.leftBrace :: r ∧ h.lbrace = h.start + s.length ∧
      0 < s.length ∧ (∀ b ∈ s, isStop b = false) ∧
      length? (s ++ [Ascii.leftBrace]) = some (s.length + 1) := by
  obtain ⟨n, hl, -, hn⟩ := mem_all.mp hh
  obtain ⟨s, r, ht, rfl, hs, hlen⟩ := length?_eq_some hn
  obtain ⟨q, rfl, -, -, -⟩ := length?_eq_some_drop hs hlen
  exact ⟨_, r, ht, by omega, by simp [keyword, Ascii.word], hs, hlen⟩

theorem getElem?_lbrace {t : Bytes} {h : Head} (hh : h ∈ all t) :
    t[h.lbrace]? = some Ascii.leftBrace := by
  obtain ⟨s, r, ht, hl, -, -, -⟩ := exists_of_mem_all hh
  rw [hl, ← List.getElem?_drop, ht]
  simp

theorem getElem?_start {t : Bytes} {h : Head} (hh : h ∈ all t) : t[h.start]? = some 0x6D := by
  obtain ⟨s, r, ht, -, -, hs, hlen⟩ := exists_of_mem_all hh
  obtain ⟨q, hq, -, -, -⟩ := length?_eq_some_drop hs hlen
  rw [← Nat.add_zero h.start, ← List.getElem?_drop, ht, hq]
  rfl

theorem not_isNameByte_before {t : Bytes} {h : Head} (hh : h ∈ all t) {j : Nat} {b : UInt8}
    (hj : h.start = j + 1) (hb : t[j]? = some b) : Ascii.isNameByte b = false := by
  obtain ⟨n, -, hmay, -⟩ := mem_all.mp hh
  by_contra hbyte
  rw [Bool.not_eq_false] at hbyte
  rw [hj, getElem?_wordMayStart_succ hb (Ascii.ascii_of_isNameByte hbyte),
    (Ascii.isNameByte_class hbyte).2] at hmay
  simp at hmay

theorem eq_of_append_stop {c : UInt8} (hc : isStop c = true) {s q r u : Bytes}
    (hs : ∀ b ∈ s, isStop b = false) (hq : ∀ b ∈ q, isStop b = false)
    (h : s ++ c :: r = q ++ c :: u) : s = q := by
  have hfront : ∀ s r : Bytes, (∀ b ∈ s, isStop b = false) →
      (s ++ c :: r).takeWhile (!isStop ·) = s := by
    intro s r hs
    rw [List.takeWhile_append_of_pos (by simpa using hs)]
    simp [hc]
  rw [← hfront s r hs, h, hfront q u hq]

theorem lbrace_lt_start {t : Bytes} {g h : Head} (hg : g ∈ all t) (hh : h ∈ all t)
    (hlt : g.start < h.start) : g.lbrace < h.start := by
  obtain ⟨s, r, ht, hl, hpos, hs, hlen⟩ := exists_of_mem_all hg
  obtain ⟨q, u, hq, hlq, hposq, hsq, hlenq⟩ := exists_of_mem_all hh
  by_contra hle
  have hdrop : t.drop h.start = (t.drop g.start).drop (h.start - g.start) := by
    rw [List.drop_drop]
    congr 1
    omega
  have hbrace : isStop Ascii.leftBrace = true := by decide
  rw [ht] at hdrop
  rcases Nat.lt_or_ge (h.start - g.start) s.length with hin | hout
  · rw [List.drop_append_of_le_length (Nat.le_of_lt hin)] at hdrop
    have hsame : q = s.drop (h.start - g.start) :=
      eq_of_append_stop hbrace hsq (fun b hb => hs b (List.mem_of_mem_drop hb))
        (hq.symm.trans hdrop)
    rw [hsame] at hlenq
    obtain ⟨b, hb, hname⟩ := not_mayStart_of_lt hs hlen (by omega) hin hlenq
    have htb : t[h.start - 1]? = some b := by
      have : t[h.start - 1]? = (t.drop g.start)[h.start - g.start - 1]? := by
        rw [List.getElem?_drop]
        congr 1
        omega
      rw [this, ht, List.getElem?_append_left (by omega), hb]
    rw [not_isNameByte_before hh (by omega) htb] at hname
    simp at hname
  · have hzero : h.start - g.start = s.length := by omega
    rw [hzero, List.drop_left, hq] at hdrop
    cases q with
    | nil => simp at hposq
    | cons x q =>
      have hx : x = Ascii.leftBrace := by simpa using congrArg List.head? hdrop
      have := hsq x (by simp)
      rw [hx, hbrace] at this
      simp at this

theorem lbrace_lt_start_of_lbrace_lt {t : Bytes} {g h : Head} (hg : g ∈ all t) (hh : h ∈ all t)
    (hlt : g.lbrace < h.lbrace) : g.lbrace < h.start := by
  obtain ⟨s, r, -, hl, -⟩ := exists_of_mem_all hg
  rcases Nat.lt_trichotomy g.start h.start with hfirst | heq | hlater
  · exact lbrace_lt_start hg hh hfirst
  · obtain ⟨n, hgl, -, hn⟩ := mem_all.mp hg
    obtain ⟨m, hhl, -, hm⟩ := mem_all.mp hh
    rw [heq, hm, Option.some.injEq] at hn
    omega
  · have := lbrace_lt_start hh hg hlater
    omega

/-- A head that starts in code has its brace in code. -/
theorem run_code_lbrace {t : Bytes} {h : Head} (hh : h ∈ all t)
    (hmask : (codeMask t)[h.start]? = some true) : Mode.run .code (t.take h.lbrace) = .code := by
  obtain ⟨s, r, ht, hl, hpos, hs, hlen⟩ := exists_of_mem_all hh
  obtain ⟨q, hq, -, -, -⟩ := length?_eq_some_drop hs hlen
  have htake : t.take h.lbrace = t.take h.start ++ s := by
    rw [hl, List.take_add, ht, List.take_left]
  have hcode := Mode.isCode_of_codeMask hmask
  have hfirst : (Mode.run .code (t.take h.start)).next 0x6D = .code :=
    Mode.next_of_plain hcode (by decide) (by decide) (by decide) (by decide)
  have hrest : ∀ b ∈ s.tail, b ≠ Ascii.slash ∧ b ≠ Ascii.doubleQuote ∧ b ≠ Ascii.singleQuote := by
    intro b hb
    have hstop := hs b (List.mem_of_mem_tail hb)
    refine ⟨?_, ?_, ?_⟩ <;> rintro rfl <;> exact absurd hstop (by decide)
  have hcons : s = 0x6D :: s.tail := by
    rw [hq]
    rfl
  rw [htake, Mode.run_append, hcons, Mode.run_cons, hfirst, Mode.run_of_plain hrest]

end Head

theorem Sighting.block?_ofHead {t : Bytes} {h : Head} {b : Block} :
    (Sighting.ofHead t (codeMask t) h).block? = some b ↔ (codeMask t)[h.start]? = some true ∧
      b.lbrace = h.lbrace ∧ matchBrace t h.lbrace = .ok b.rbrace := by
  obtain ⟨lbrace, rbrace⟩ := b
  by_cases hmask : (codeMask t)[h.start]? = some true
  · cases hmatch : matchBrace t h.lbrace with
    | ok stop => simp [Sighting.ofHead, Sighting.block?, hmask, hmatch, eq_comm]
    | error e => simp [Sighting.ofHead, Sighting.block?, hmask, hmatch]
  · simp [Sighting.ofHead, Sighting.block?, hmask]

theorem mem_messageBlocks {t : Bytes} {b : Block} :
    b ∈ messageBlocks t ↔ ∃ h ∈ Head.all t, (codeMask t)[h.start]? = some true ∧
      b.lbrace = h.lbrace ∧ matchBrace t h.lbrace = .ok b.rbrace := by
  rw [messageBlocks, sightings, List.mem_filterMap]
  simp only [List.mem_map, exists_exists_and_eq_and, Sighting.block?_ofHead]

theorem matchBrace_of_mem {t : Bytes} {b : Block} (hb : b ∈ messageBlocks t) :
    matchBrace t b.lbrace = .ok b.rbrace := by
  obtain ⟨h, -, -, hl, hmatch⟩ := mem_messageBlocks.mp hb
  rw [hl, hmatch]

theorem pairwise_messageBlocks (t : Bytes) :
    (messageBlocks t).Pairwise (·.lbrace < ·.lbrace) := by
  have hp : (Head.all t).Pairwise fun g h => g.lbrace < h.lbrace := by
    refine List.Pairwise.imp_of_mem ?_ (Head.pairwise_all t)
    intro g h hg hh hlt
    have hgh := Head.lbrace_lt_start hg hh hlt
    obtain ⟨s, r, -, hl, -, -, -⟩ := Head.exists_of_mem_all hh
    omega
  rw [messageBlocks, sightings, List.pairwise_filterMap, List.pairwise_map]
  refine hp.imp ?_
  intro g h hlt b hb c hc
  rw [(Sighting.block?_ofHead.mp hb).2.1, (Sighting.block?_ofHead.mp hc).2.1]
  exact hlt

theorem pairwise_reverse_messageBlocks (t : Bytes) :
    (messageBlocks t).reverse.Pairwise fun b c => c.lbrace < b.lbrace :=
  List.pairwise_reverse.mpr (pairwise_messageBlocks t)

theorem filter_messageBlocks {t : Bytes} {b : Block} {front back : List Block}
    (hsplit : messageBlocks t = front ++ b :: back) :
    (messageBlocks t).filter (·.lbrace < b.lbrace) = front := by
  have hasc := pairwise_messageBlocks t
  rw [hsplit] at hasc ⊢
  obtain ⟨-, hback, hfront⟩ := List.pairwise_append.mp hasc
  have hkeep : front.filter (·.lbrace < b.lbrace) = front :=
    List.filter_eq_self.mpr fun c hc => decide_eq_true (hfront c hc b List.mem_cons_self)
  have hdrop : (b :: back).filter (·.lbrace < b.lbrace) = [] := by
    refine List.filter_eq_nil_iff.mpr fun c hc => ?_
    rw [decide_eq_true_eq, Nat.not_lt]
    cases List.mem_cons.mp hc with
    | inl heq => rw [heq]
    | inr hin => exact Nat.le_of_lt ((List.pairwise_cons.mp hback).1 c hin)
  rw [List.filter_append, hkeep, hdrop, List.append_nil]

theorem eq_of_mem_iff_blocks {as bs : List Block} (ha : as.Pairwise (·.lbrace < ·.lbrace))
    (hb : bs.Pairwise (·.lbrace < ·.lbrace)) (h : ∀ b, b ∈ as ↔ b ∈ bs) : as = bs := by
  let before : Block → Block → Prop := fun a b => a.lbrace < b.lbrace
  have : Std.Irrefl before := ⟨fun a => Nat.lt_irrefl a.lbrace⟩
  have : Std.Antisymm before := ⟨fun a b hab hba => absurd hab (Nat.lt_asymm hba)⟩
  exact List.Pairwise.eq_of_mem_iff (show as.Pairwise before from ha) hb h

theorem messageBlocks_eq {t : Bytes} {bs : List Block} (hs : bs.Pairwise (·.lbrace < ·.lbrace))
    (h : ∀ b, b ∈ messageBlocks t ↔ b ∈ bs) : messageBlocks t = bs :=
  eq_of_mem_iff_blocks (pairwise_messageBlocks t) hs h

end FieldTags
