import FieldTags.Proofs.Message.Parts

/-! Matching braces as a language. The braces of code that are read from an opening brace up to the one
that closes it are that brace, a word in which all braces pair up, and the closing brace; where there is
no such beginning the brace is unmatched. The bytes around the two braces play no part. -/
namespace FieldTags

def EventKind.isBrace : EventKind → Bool
  | openBrace | closeBrace => true
  | _ => false

def braces (es : List Event) : List Event := es.filter (·.kind.isBrace)

def EventKind.count (k : EventKind) (es : List Event) : Nat := es.countP (·.kind = k)

inductive Dyck : List Event → Prop
  | nil : Dyck []
  | block {o c : Event} {w v : List Event} (ho : o.kind = .openBrace) (hc : c.kind = .closeBrace)
    (hw : Dyck w) (hv : Dyck v) : Dyck (o :: w ++ c :: v)

/-- An opening brace, paired braces, and the closing brace at the offset `stop`. -/
structure Braced (es : List Event) (stop : Nat) : Prop where
  split : ∃ o w c, es = o :: w ++ [c] ∧ o.kind = .openBrace ∧ Dyck w ∧ c.kind = .closeBrace ∧
    c.offset = stop

theorem closing?_openBrace {e : Event} (h : e.kind = .openBrace) (depth : Nat) (es : List Event) :
    closing? depth (e :: es) = closing? (depth + 1) es := by
  simp [closing?, h]

theorem closing?_closeBrace {e : Event} (h : e.kind = .closeBrace) (es : List Event) :
    closing? 1 (e :: es) = some e.offset := by
  simp [closing?, h]

theorem closing?_succ_closeBrace {e : Event} (h : e.kind = .closeBrace) {depth : Nat}
    (hd : 0 < depth) (es : List Event) : closing? (depth + 1) (e :: es) = closing? depth es := by
  have hgt : ¬ depth + 1 ≤ 1 := by omega
  simp [closing?, h, hgt]

theorem EventKind.isBrace_iff {k : EventKind} :
    k.isBrace = true ↔ k = .openBrace ∨ k = .closeBrace := by
  cases k <;> decide

theorem closing?_of_not_isBrace {e : Event} (h : e.kind.isBrace = false) (depth : Nat)
    (es : List Event) : closing? depth (e :: es) = closing? depth es := by
  obtain ⟨kind, offset⟩ := e
  cases kind with
  | openBrace | closeBrace => exact absurd h Bool.true_eq_false.mp
  | semicolon | lineBreak | commentEnd => rfl

theorem closing?_braces (depth : Nat) (es : List Event) :
    closing? depth (braces es) = closing? depth es := by
  unfold braces
  induction es generalizing depth with
  | nil => rfl
  | cons e es ih =>
    cases hb : e.kind.isBrace with
    | false => rw [List.filter_cons_of_neg (by simp [hb]), closing?_of_not_isBrace hb, ih]
    | true =>
      rw [List.filter_cons_of_pos (by simp [hb])]
      cases EventKind.isBrace_iff.mp hb with
      | inl hopen => rw [closing?_openBrace hopen, closing?_openBrace hopen, ih]
      | inr hclose => simp only [closing?, hclose, ih]

theorem Dyck.closing?_append {w : List Event} (hw : Dyck w) {depth : Nat} (hd : 0 < depth)
    (es : List Event) : closing? depth (w ++ es) = closing? depth es := by
  induction hw generalizing depth es with
  | nil => rfl
  | @block o c w v ho hc _ _ ihw ihv =>
    calc closing? depth (o :: w ++ c :: v ++ es)
        = closing? depth (o :: (w ++ c :: (v ++ es))) := by simp
      _ = closing? (depth + 1) (w ++ c :: (v ++ es)) := closing?_openBrace ho _ _
      _ = closing? (depth + 1) (c :: (v ++ es)) := ihw (Nat.succ_pos depth) _
      _ = closing? depth (v ++ es) := closing?_succ_closeBrace hc hd _
      _ = closing? depth es := ihv hd es

/-- A count of open blocks that ends comes first to the closing brace behind a paired word. -/
theorem exists_dyck_of_closing? {es : List Event} {depth stop : Nat}
    (hes : ∀ e ∈ es, e.kind.isBrace = true)
    (h : closing? (depth + 1) es = some stop) :
    ∃ w c rest, es = w ++ c :: rest ∧ Dyck w ∧ c.kind = .closeBrace := by
  induction hn : es.length using Nat.strong_induction_on generalizing es depth with
  | _ n ih =>
    cases es with
    | nil => simp [closing?] at h
    | cons e es =>
      rw [List.length_cons] at hn
      obtain ⟨he, hes⟩ := List.forall_mem_cons.mp hes
      cases EventKind.isBrace_iff.mp he with
      | inr hclose => exact ⟨[], e, es, rfl, .nil, hclose⟩
      | inl hopen =>
        -- the block that `e` opens ends with `c`, and what follows has one open block less
        rw [closing?_openBrace hopen] at h
        obtain ⟨w, c, rest, rfl, hw, hc⟩ := ih es.length (by omega) hes h rfl
        rw [hw.closing?_append (Nat.succ_pos _), closing?_succ_closeBrace hc (Nat.succ_pos _)] at h
        rw [List.length_append, List.length_cons] at hn
        have hrest : ∀ e ∈ rest, e.kind.isBrace = true := fun e he => hes e (by simp [he])
        obtain ⟨v, d, back, rfl, hv, hd⟩ := ih rest.length (by omega) hrest h rfl
        exact ⟨e :: w ++ c :: v, d, back, by simp, .block hopen hc hw hv, hd⟩

namespace Braced
variable {es fs : List Event} {stop : Nat}

theorem closing?_append (h : Braced es stop) (rest : List Event) :
    closing? 0 (es ++ rest) = some stop := by
  obtain ⟨o, w, c, rfl, ho, hw, hc, rfl⟩ := h.split
  calc closing? 0 (o :: w ++ [c] ++ rest)
      = closing? 0 (o :: (w ++ c :: rest)) := by simp
    _ = closing? 1 (w ++ c :: rest) := closing?_openBrace ho _ _
    _ = closing? 1 (c :: rest) := hw.closing?_append Nat.one_pos _
    _ = some c.offset := closing?_closeBrace hc rest

theorem closing?_dropLast (h : Braced es stop) : closing? 0 es.dropLast = none := by
  obtain ⟨o, w, c, rfl, ho, hw, -⟩ := h.split
  rw [List.dropLast_concat, closing?_openBrace ho, ← List.append_nil w,
    hw.closing?_append Nat.one_pos]
  rfl

theorem eq_nil_of_append {other : Nat} (h : Braced es stop) (ho : Braced (es ++ fs) other) :
    fs = [] := by
  by_contra hne
  have hdrop := ho.closing?_dropLast
  rw [List.dropLast_append_of_ne_nil hne, h.closing?_append] at hdrop
  simp at hdrop

theorem unique {es' rest rest' : List Event} {other : Nat} (h : Braced es stop)
    (ho : Braced es' other) (heq : es ++ rest = es' ++ rest') : es = es' := by
  cases List.append_eq_append_iff.mp heq with
  | inl hlong =>
    obtain ⟨fs, rfl, -⟩ := hlong
    rw [h.eq_nil_of_append ho, List.append_nil]
  | inr hshort =>
    obtain ⟨fs, rfl, -⟩ := hshort
    rw [ho.eq_nil_of_append h, List.append_nil]

end Braced

theorem exists_braced_of_closing? {es : List Event} {stop : Nat}
    (hes : ∀ e ∈ es, e.kind.isBrace = true)
    (hfront : ∀ e ∈ es.head?, e.kind = .openBrace) (h : closing? 0 es = some stop) :
    ∃ block rest, es = block ++ rest ∧ Braced block stop := by
  cases es with
  | nil => simp [closing?] at h
  | cons o es =>
    have ho : o.kind = .openBrace := hfront o rfl
    rw [closing?_openBrace ho] at h
    obtain ⟨w, c, rest, rfl, hw, hc⟩ := exists_dyck_of_closing? (List.forall_mem_cons.mp hes).2 h
    rw [hw.closing?_append Nat.one_pos, closing?_closeBrace hc, Option.some.injEq] at h
    exact ⟨o :: w ++ [c], rest, by simp, ⟨o, w, c, rfl, ho, hw, hc, h⟩⟩

/-- While the count goes on, more braces have opened than closed, and their difference is the count. -/
theorem closing?_of_eq_none {depth : Nat} (hd : 0 < depth) {p : List Event}
    (h : closing? depth p = none) (q : List Event) :
    EventKind.count .closeBrace p < depth + EventKind.count .openBrace p ∧
      closing? depth (p ++ q) =
        closing? (depth + EventKind.count .openBrace p - EventKind.count .closeBrace p) q := by
  induction p generalizing depth with
  | nil => exact ⟨hd, rfl⟩
  | cons e p ih =>
    obtain ⟨kind, offset⟩ := e
    cases kind with
    | openBrace =>
      obtain ⟨hlt, heq⟩ := ih (Nat.succ_pos depth) h
      simp only [EventKind.count] at hlt heq
      refine ⟨by simp [EventKind.count]; omega, ?_⟩
      change closing? (depth + 1) (p ++ q) = _
      rw [heq]
      congr 1
      simp [EventKind.count]
      omega
    | closeBrace =>
      by_cases hd1 : depth ≤ 1
      · simp [closing?, hd1] at h
      · have hnone : closing? (depth - 1) p = none := by simpa [closing?, hd1] using h
        obtain ⟨hlt, heq⟩ := ih (by omega) hnone
        simp only [EventKind.count] at hlt heq
        refine ⟨by simp [EventKind.count]; omega, ?_⟩
        have hnext : closing? depth (⟨.closeBrace, offset⟩ :: p ++ q) =
            closing? (depth - 1) (p ++ q) := by simp [closing?, hd1]
        rw [hnext, heq]
        congr 1
        simp [EventKind.count]
        omega
    | semicolon | lineBreak | commentEnd => simpa [EventKind.count, closing?] using ih hd h

theorem closingFrom?_take {m : Mode} {depth position stop : Nat} {t : Bytes}
    (h : closingFrom? m depth position t = some stop) :
    position ≤ stop ∧
      ∀ u, closingFrom? m depth position (t.take (stop + 1 - position) ++ u) = some stop := by
  induction t generalizing m depth position with
  | nil => simp [closingFrom?] at h
  | cons b t ih =>
    -- a byte that does not end the search is kept, and the search goes on behind it
    have hstep : ∀ d, closingFrom? (m.next b) d (position + 1) t = some stop →
        (∀ u, closingFrom? m depth position (b :: u) =
          closingFrom? (m.next b) d (position + 1) u) →
        position ≤ stop ∧ ∀ u, closingFrom? m depth position
          ((b :: t).take (stop + 1 - position) ++ u) = some stop := by
      intro d hd hnext
      obtain ⟨hle, hu⟩ := ih hd
      have htake : stop + 1 - position = stop + 1 - (position + 1) + 1 := by omega
      refine ⟨by omega, fun u => ?_⟩
      rw [htake, List.take_succ_cons, List.cons_append, hnext]
      exact hu u
    cases hk : m.event? b with
    | none => exact hstep depth (by simpa [closingFrom?, hk] using h) (by simp [closingFrom?, hk])
    | some kind =>
      cases kind with
      | openBrace =>
        exact hstep (depth + 1) (by simpa [closingFrom?, hk] using h) (by simp [closingFrom?, hk])
      | closeBrace =>
        by_cases hd : depth ≤ 1
        · obtain rfl : position = stop := by simpa [closingFrom?, hk, hd] using h
          refine ⟨Nat.le_refl _, fun u => ?_⟩
          rw [Nat.add_sub_cancel_left]
          simp [closingFrom?, hk, hd]
        · exact hstep (depth - 1) (by simpa [closingFrom?, hk, hd] using h)
            (by simp [closingFrom?, hk, hd])
      | semicolon | lineBreak | commentEnd =>
        exact hstep depth (by simpa [closingFrom?, hk] using h) (by simp [closingFrom?, hk])

/-- A matched brace stays matched, whatever stands before it in as many bytes and whatever stands behind
its closing brace. -/
theorem matchBrace_between {t before : Bytes} {i stop : Nat} (h : matchBrace t i = .ok stop)
    (hi : before.length = i) (after : Bytes) :
    matchBrace (before ++ t.between i (stop + 1) ++ after) i = .ok stop := by
  subst hi
  obtain ⟨hbrace, hclosing⟩ := matchBrace_eq_ok.mp h
  rw [eventsAt, ← closingFrom?_eq] at hclosing
  obtain ⟨hle, htake⟩ := closingFrom?_take hclosing
  have hdrop : (before ++ t.between before.length (stop + 1) ++ after).drop before.length =
      (t.drop before.length).take (stop + 1 - before.length) ++ after := by
    rw [List.append_assoc, List.drop_left, Bytes.between, List.drop_take]
  refine matchBrace_eq_ok.mpr ⟨?_, ?_⟩
  · have hlt := (List.getElem?_eq_some_iff.mp hbrace).1
    rw [← Nat.add_zero before.length, ← List.getElem?_drop, Nat.add_zero, hdrop,
      List.getElem?_append_left (by rw [List.length_take, List.length_drop]; omega),
      List.getElem?_take_of_lt (by omega), List.getElem?_drop]
    exact hbrace
  · rw [eventsAt, ← closingFrom?_eq, hdrop]
    exact htake after

section
variable {t : Bytes} {i : Nat}

theorem isBrace_of_mem_braces (es : List Event) : ∀ e ∈ braces es, e.kind.isBrace = true :=
  fun _ he => (List.mem_filter.mp he).2

theorem braces_eventsAt (h : t[i]? = some Ascii.leftBrace) :
    braces (eventsAt t i) = ⟨.openBrace, i⟩ :: braces (eventsAt t (i + 1)) := by
  rw [eventsAt_of_leftBrace h]
  rfl

theorem matchBrace_eq_ok_iff_braced (h : t[i]? = some Ascii.leftBrace) {stop : Nat} :
    matchBrace t i = .ok stop ↔
      ∃ block rest, braces (eventsAt t i) = block ++ rest ∧ Braced block stop := by
  rw [matchBrace_eq_ok, and_iff_right h, ← closing?_braces]
  constructor
  · refine exists_braced_of_closing? (isBrace_of_mem_braces _) fun e he => ?_
    rw [braces_eventsAt h] at he
    obtain rfl := Option.some.inj he
    rfl
  · rintro ⟨block, rest, heq, hblock⟩
    rw [heq]
    exact hblock.closing?_append rest

theorem matchBrace_eq_unmatched_iff (h : t[i]? = some Ascii.leftBrace) :
    matchBrace t i = .error (.unmatched i) ↔ ∀ stop, matchBrace t i ≠ .ok stop := by
  rw [matchBrace_of_leftBrace h]
  cases closing? 0 (eventsAt t i) <;> simp

theorem matchBrace_eq_notAnOpenBrace_iff :
    matchBrace t i = .error (.notAnOpenBrace i) ↔ t[i]? ≠ some Ascii.leftBrace := by
  by_cases h : t[i]? = some Ascii.leftBrace
  · rw [matchBrace_of_leftBrace h]
    cases closing? 0 (eventsAt t i) <;> simp [h]
  · simp [matchBrace, h]

theorem count_lt_count (h : t[i]? = some Ascii.leftBrace) {p q : List Event}
    (hsplit : braces (eventsAt t i) = p ++ q) (hp : p ≠ []) (hnone : closing? 0 p = none) :
    EventKind.count .closeBrace p < EventKind.count .openBrace p ∧
      closing? 0 (p ++ q) =
        closing? (EventKind.count .openBrace p - EventKind.count .closeBrace p) q := by
  obtain ⟨o, p, rfl⟩ := List.exists_cons_of_ne_nil hp
  rw [braces_eventsAt h, List.cons_append] at hsplit
  obtain ⟨rfl, -⟩ := List.cons_eq_cons.mp hsplit
  obtain ⟨hlt, heq⟩ := closing?_of_eq_none Nat.one_pos hnone q
  have hopen : EventKind.count .openBrace (⟨.openBrace, i⟩ :: p) =
      1 + EventKind.count .openBrace p := by
    simp [EventKind.count, Nat.add_comm]
  have hclose : EventKind.count .closeBrace (⟨.openBrace, i⟩ :: p) =
      EventKind.count .closeBrace p := by
    simp [EventKind.count]
  rw [hopen, hclose]
  exact ⟨hlt, heq⟩

end

/-- Matching the brace at `i` reads the braces of code from there on. It ends with the one beginning of
them that is an opening brace, paired braces and a closing brace, and it fails only if there is none; up
to there more braces have opened than closed, and the count of open blocks is their difference. Only the
bytes from the opening brace through the closing one matter. -/
theorem matchBrace_braced (t : Bytes) (i : Nat) :
    (matchBrace t i = .error (.notAnOpenBrace i) ↔ t[i]? ≠ some Ascii.leftBrace) ∧
    (t[i]? = some Ascii.leftBrace →
      (∀ stop, matchBrace t i = .ok stop ↔
        ∃ block rest, braces (eventsAt t i) = block ++ rest ∧ Braced block stop) ∧
      (matchBrace t i = .error (.unmatched i) ↔
        ¬ ∃ block rest stop, braces (eventsAt t i) = block ++ rest ∧ Braced block stop) ∧
      (∀ block rest stop other behind last,
        braces (eventsAt t i) = block ++ rest → Braced block stop →
        braces (eventsAt t i) = other ++ behind → Braced other last → block = other) ∧
      ∀ p q, braces (eventsAt t i) = p ++ q → p ≠ [] → closing? 0 p = none →
        EventKind.count .closeBrace p < EventKind.count .openBrace p ∧
          closing? 0 (p ++ q) =
            closing? (EventKind.count .openBrace p - EventKind.count .closeBrace p) q) ∧
    ∀ stop, matchBrace t i = .ok stop → ∀ before after : Bytes, before.length = i →
      matchBrace (before ++ t.between i (stop + 1) ++ after) i = .ok stop := by
  refine ⟨matchBrace_eq_notAnOpenBrace_iff, fun h => ⟨fun stop => matchBrace_eq_ok_iff_braced h,
    ?_, ?_, fun p q hsplit hp hnone => count_lt_count h hsplit hp hnone⟩,
    fun stop hstop before after hlen => matchBrace_between hstop hlen after⟩
  · simp only [matchBrace_eq_unmatched_iff h, ne_eq, matchBrace_eq_ok_iff_braced h]
    constructor
    · rintro hno ⟨block, rest, stop, heq, hblock⟩
      exact hno stop ⟨block, rest, heq, hblock⟩
    · rintro hno stop ⟨block, rest, heq, hblock⟩
      exact hno ⟨block, rest, stop, heq, hblock⟩
  · intro block rest stop other behind last heq hblock heq' hother
    exact hblock.unique hother (heq.symm.trans heq')

theorem matchBrace_braced_hidden :
    let t := Ascii.word "m \x7b /* \x7d */ \x7b \x7d \x7d \x7d"
    (∃ block rest, braces (eventsAt t 2) = block ++ rest ∧ Braced block 16) ∧
      matchBrace (Ascii.word "\x7d\"" ++ t.between 2 17 ++ Ascii.word "/*") 2 = .ok 16 := by
  intro t
  obtain ⟨-, hbraced, hlocal⟩ := matchBrace_braced t 2
  have hmatch : matchBrace t 2 = .ok 16 := by decide +kernel
  exact ⟨((hbraced (by decide +kernel)).1 16).mp hmatch, hlocal 16 hmatch _ _ rfl⟩

end FieldTags
