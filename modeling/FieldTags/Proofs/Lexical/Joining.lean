import FieldTags.Proofs.Lexical.Division

/-! One text behind another. A scan that is in code where the first text ends reads the second one as a
text of its own, unless the two bytes at the seam open a comment together. -/
namespace FieldTags

/-- The last byte of the first text is a slash of code, and the first byte of the second one makes a
comment of it. -/
def OpensAcross (s t : Bytes) : Prop :=
  (s.getLast? = some Ascii.slash ∧ (codeMask s).getLast? = some true) ∧
    (t.head? = some Ascii.slash ∨ t.head? = some Ascii.asterisk)

instance (s t : Bytes) : Decidable (OpensAcross s t) := inferInstanceAs (Decidable (_ ∧ _))

/-- A scan of `s ++ t` finds what scans of the two texts find, that of `t` behind the length of `s`. One
that starts at the seam finds its second part and ends where it ends. -/
structure Joined (s t : Bytes) : Prop where
  mask : codeMask (s ++ t) = codeMask s ++ codeMask t
  tail : eventsAt (s ++ t) s.length = (events t).map (Event.move (s.length + ·))
  region : endRegion (s ++ t) s.length = endRegion (s ++ t) 0
  events : events (s ++ t) = events s ++ (events t).map (Event.move (s.length + ·))

theorem run_eq_slash_iff {s : Bytes} : Mode.run .code s = .slash ↔
    s.getLast? = some Ascii.slash ∧ (codeMask s).getLast? = some true := by
  rcases List.eq_nil_or_concat s with rfl | ⟨r, b, rfl⟩
  · simp
  · rw [List.concat_eq_append, Mode.run_append, Mode.run_cons, Mode.run_nil,
      Mode.next_eq_slash_iff, getLast?_codeMask_concat, List.getLast?_concat]
    constructor
    · rintro ⟨hcode, rfl⟩
      rw [hcode]
      exact ⟨rfl, rfl⟩
    · rintro ⟨hb, hshown⟩
      obtain rfl : b = Ascii.slash := Option.some.inj hb
      refine ⟨?_, rfl⟩
      cases hrun : Mode.run .code r with
      | code => rfl
      | _ => simp [hrun, Mode.shows] at hshown

/-- A scan that is in code goes on as one that begins there, unless it has just passed a slash that opens a
comment. -/
theorem Mode.scan_eq_code {m : Mode} {t : Bytes} (hm : m.region = .code)
    (ht : m = .slash → t.head? ≠ some Ascii.slash ∧ t.head? ≠ some Ascii.asterisk) :
    codeMaskFrom m t = codeMaskFrom .code t ∧
      (∀ position, eventsFrom m position t = eventsFrom .code position t) ∧
      (run m t).region = (run .code t).region := by
  rcases Mode.region_eq_code_iff.mp hm with rfl | rfl
  · exact ⟨rfl, fun _ => rfl, rfl⟩
  · exact Mode.slash_eq_code (ht rfl)

/-- The slash in front of the seam is code in the first text alone. -/
theorem OpensAcross.mask_ne {s t : Bytes} (h : OpensAcross s t) :
    codeMask (s ++ t) ≠ codeMask s ++ codeMask t := by
  obtain ⟨hslash, hopens⟩ := h
  have hrun := run_eq_slash_iff.mpr hslash
  obtain ⟨hlast, hshown⟩ := hslash
  obtain ⟨r, rfl⟩ := List.getLast?_eq_some_iff.mp hlast
  rw [Mode.run_append] at hrun
  obtain ⟨hcode, -⟩ := Mode.next_eq_slash_iff.mp hrun
  -- both masks at the slash, which is in front of `t` in one and at the end in the other
  have hboth : (codeMask (r ++ [Ascii.slash] ++ t))[r.length]? = some false := by
    have hmask := codeMaskFrom_append .code r ([Ascii.slash] ++ t) 0
    rw [hcode, ← List.append_assoc] at hmask
    rcases hopens with hhead | hhead <;>
      exact hmask.trans (by simp [codeMaskFrom, Mode.shows, hhead])
  have hfirst : (codeMask (r ++ [Ascii.slash]) ++ codeMask t)[r.length]? = some true := by
    rw [List.getElem?_append_left (by simp), ← hshown, List.getLast?_eq_getElem?]
    simp
  intro heq
  rw [heq, hfirst] at hboth
  simp at hboth

/-- Behind a text that ends in code another one is scanned as on its own, exactly if no comment opens
across the seam. -/
theorem joined_iff {s t : Bytes} (hs : endRegion s 0 = .code) : Joined s t ↔ ¬ OpensAcross s t := by
  constructor
  · exact fun hjoined hopens => hopens.mask_ne hjoined.mask
  · intro hopens
    have hcode : (Mode.run .code s).region = .code := hs
    have hclear : Mode.run .code s = .slash →
        t.head? ≠ some Ascii.slash ∧ t.head? ≠ some Ascii.asterisk :=
      fun hrun => not_or.mp fun hhead => hopens ⟨run_eq_slash_iff.mp hrun, hhead⟩
    obtain ⟨hmask, hevents, hregion⟩ := Mode.scan_eq_code hcode hclear
    have htail : eventsAt (s ++ t) s.length = (events t).map (Event.move (s.length + ·)) :=
      eventsAt_append_right s t 0
    refine ⟨?_, htail, ?_, ?_⟩
    · calc codeMask (s ++ t)
          = codeMask s ++ codeMaskFrom (Mode.run .code s) t := codeMaskFrom_append_of_seam hclear
        _ = codeMask s ++ codeMask t := by rw [hmask, codeMask, codeMask]
    · calc endRegion (s ++ t) s.length
          = (Mode.run .code t).region := by rw [endRegion, List.drop_left]
        _ = (Mode.run .code (s ++ t)).region := by rw [Mode.run_append, hregion]
    · calc events (s ++ t)
          = events s ++ eventsFrom (Mode.run .code s) s.length t := eventsAt_append (Nat.zero_le _) t
        _ = events s ++ eventsAt (s ++ t) s.length := by rw [hevents, eventsAt, List.drop_left]
        _ = events s ++ (events t).map (Event.move (s.length + ·)) := by rw [htail]

/-- A slash of code at the seam joins a text that begins with a gap, but none that begins with an
asterisk. -/
theorem joined_iff_slash :
    let s := Ascii.word "a \x22\x5c\x22//\x22 /* \x7b */ b; /"
    Joined s (Ascii.word " c \x7b \x22*") ∧ ¬ Joined s (Ascii.word "* c \x7b") := by
  intro s
  have hs : endRegion s 0 = .code := by decide +kernel
  refine ⟨(joined_iff hs).mpr ?_, fun hjoined => (joined_iff hs).mp hjoined ?_⟩ <;> decide +kernel

end FieldTags
