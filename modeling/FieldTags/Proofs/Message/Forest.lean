import FieldTags.Proofs.Lexical.Division
import FieldTags.Proofs.Message.Nesting

/-! Message blocks as a forest. A scan that starts at the opening brace of a block is in step with the
scan of the whole text: it meets the same modes and events. -/
namespace FieldTags

theorem eventsAt_eq_filter {t : Bytes} {i : Nat} (hcode : Mode.run .code (t.take i) = .code)
    (hi : i ≤ t.length) : eventsAt t i = (events t).filter (i ≤ ·.offset) := by
  have hbefore : (eventsFrom .code 0 ((t.drop 0).take (i - 0))).filter (i ≤ ·.offset) = [] := by
    refine List.filter_eq_nil_iff.mpr fun e he => ?_
    have hbounds := (bounds_of_mem_eventsFrom he).2
    rw [List.length_take] at hbounds
    rw [decide_eq_true_eq]
    omega
  have hafter : (eventsAt t i).filter (i ≤ ·.offset) = eventsAt t i :=
    List.filter_eq_self.mpr fun e he => decide_eq_true (bounds_of_mem_eventsFrom he).1
  rw [events, eventsAt_split rfl hcode (Nat.zero_le i) hi, List.filter_append, hbefore, hafter,
    List.nil_append]

theorem codeMask_braces {t : Bytes} {b : Block} (hb : b ∈ messageBlocks t) :
    (t[b.lbrace]? = some Ascii.leftBrace ∧ (codeMask t)[b.lbrace]? = some true) ∧
      t[b.rbrace]? = some Ascii.rightBrace ∧ (codeMask t)[b.rbrace]? = some true := by
  obtain ⟨toks, hdivision⟩ := exists_division t
  have hscan := hdivision.tokenScan
  obtain ⟨hbrace, hclosing⟩ := matchBrace_eq_ok.mp (matchBrace_of_mem hb)
  have hlen := (List.getElem?_eq_some_iff.mp hbrace).1
  have hmem : ∀ e ∈ eventsAt t b.lbrace, e ∈ events t := by
    rw [eventsAt_eq_filter (run_code_lbrace hb) (Nat.le_of_lt hlen)]
    exact fun e he => List.mem_of_mem_filter he
  refine ⟨(hscan.openBrace _).mp (hmem _ ?_), (hscan.closeBrace _).mp (hmem _ ?_)⟩
  · rw [eventsAt_of_leftBrace hbrace]
    exact List.mem_cons_self
  · exact mem_of_closing? hclosing

theorem contains_or_apart {t : Bytes} {a b : Block} (ha : a ∈ messageBlocks t)
    (hb : b ∈ messageBlocks t) (hlt : a.lbrace < b.lbrace) :
    a.contains b = true ∨ a.rbrace < b.lbrace := by
  rcases nested_or_apart ha hb hlt with hin | hout
  · left
    simp [Block.contains, hlt, hin]
  · exact .inr hout

theorem eq_of_lbrace_eq {t : Bytes} {a b : Block} (ha : a ∈ messageBlocks t)
    (hb : b ∈ messageBlocks t) (h : a.lbrace = b.lbrace) : a = b := by
  have hmatch := matchBrace_of_mem ha
  rw [h, matchBrace_of_mem hb, Except.ok.injEq] at hmatch
  cases a
  cases b
  simp only at h hmatch
  rw [h, hmatch]

theorem eq_of_rbrace_eq {t : Bytes} {a b : Block} (ha : a ∈ messageBlocks t)
    (hb : b ∈ messageBlocks t) (h : a.rbrace = b.rbrace) : a = b := by
  have hlta := (getElem?_rbrace ha).2
  have hltb := (getElem?_rbrace hb).2
  rcases Nat.lt_trichotomy a.lbrace b.lbrace with hlt | heq | hgt
  · have := nested_or_apart ha hb hlt
    omega
  · exact eq_of_lbrace_eq ha hb heq
  · have := nested_or_apart hb ha hgt
    omega

theorem lbrace_ne_rbrace {t : Bytes} {a b : Block} (ha : a ∈ messageBlocks t)
    (hb : b ∈ messageBlocks t) : a.lbrace ≠ b.rbrace := by
  intro h
  have hleft := getElem?_lbrace ha
  rw [h, (getElem?_rbrace hb).1] at hleft
  exact absurd hleft (by decide)

/-- Message blocks are nested or apart, and no two of them share a brace. Their braces are code, and a
scan from an opening brace goes through the modes and the events of a scan of the whole text. -/
theorem messageBlocks_forest (t : Bytes) :
    (∀ a ∈ messageBlocks t, ∀ b ∈ messageBlocks t, a.lbrace < b.lbrace →
      a.contains b = true ∨ a.rbrace < b.lbrace) ∧
    (∀ a ∈ messageBlocks t, ∀ b ∈ messageBlocks t, a ≠ b →
      a.lbrace ≠ b.lbrace ∧ a.lbrace ≠ b.rbrace ∧ a.rbrace ≠ b.rbrace) ∧
    (∀ b ∈ messageBlocks t,
      (t[b.lbrace]? = some Ascii.leftBrace ∧ (codeMask t)[b.lbrace]? = some true) ∧
        t[b.rbrace]? = some Ascii.rightBrace ∧ (codeMask t)[b.rbrace]? = some true) ∧
    ∀ b ∈ messageBlocks t,
      (∀ k, b.lbrace ≤ k →
        Mode.run .code ((t.drop b.lbrace).take (k - b.lbrace)) = Mode.run .code (t.take k)) ∧
      eventsAt t b.lbrace = (events t).filter (b.lbrace ≤ ·.offset) := by
  refine ⟨fun a ha b hb hlt => contains_or_apart ha hb hlt, fun a ha b hb hne => ?_,
    fun b hb => codeMask_braces hb, fun b hb => ⟨fun k hk => Mode.run_drop (run_code_lbrace hb) hk, ?_⟩⟩
  · exact ⟨fun h => hne (eq_of_lbrace_eq ha hb h), lbrace_ne_rbrace ha hb,
      fun h => hne (eq_of_rbrace_eq ha hb h)⟩
  · exact eventsAt_eq_filter (run_code_lbrace hb)
      (Nat.le_of_lt (List.getElem?_eq_some_iff.mp (getElem?_lbrace hb)).1)

end FieldTags
