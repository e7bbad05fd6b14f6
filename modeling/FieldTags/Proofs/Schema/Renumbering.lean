import FieldTags.Proofs.Document.Renumbering
import FieldTags.Proofs.Schema.Fields
import FieldTags.Proofs.Schema.Openers

/-! Renumbering a schema gives every message's direct fields the tags 1, 2, 3, ... and changes no
other byte. The proof takes the text apart from its front: item by item, each behind its layout. -/
namespace FieldTags
namespace Schema

/-- A property of the rest of a text that goes on over parts which renumbering leaves alone. -/
def Absorbs (P : Nat → Bytes → (Nat → Bytes) → Prop) : Prop :=
  ∀ a b s t q, Part a b s 0 0 0 (fun _ => s) → P b t q → P a (s ++ t) fun k => s ++ q k

theorem absorbs_tail (f m c : Nat) : Absorbs fun a t q => Tail a t f m c q := by
  intro a b s t q hs ht
  simpa using hs.prepend ht

theorem absorbs_rewrites (m c : Nat) : Absorbs fun _ t q => Rewrites t m c (q 0) := by
  intro a b s t q hs ht
  simpa using Rewrites.append hs.toParted hs.matched hs.rewrites ht

namespace Absorbs
variable {P : Nat → Bytes → (Nat → Bytes) → Prop} (hP : Absorbs P) {a b : Nat} {t : Bytes}
  {q : Nat → Bytes}
include hP

theorem lines (lines : List (Gap × Break)) (ht : P a t q) :
    P a ((lines.flatMap fun (gap, stop) => gap.bytes ++ stop.atom.text) ++ t) fun k =>
      (lines.flatMap fun (gap, stop) => gap.bytes ++ stop.atom.text) ++ q k := by
  induction lines with
  | nil => exact ht
  | cons line lines ih =>
    obtain ⟨gap, stop⟩ := line
    have := hP a a _ _ _ (part_line gap stop a) ih
    simpa only [List.flatMap_cons, List.append_assoc] using this

theorem item (l : Layout) {s : Bytes} (hs : Part a b (l.indent.bytes ++ s) 0 0 0 fun _ =>
    l.indent.bytes ++ s) (ht : P b t q) : P a (l.text ++ s ++ t) fun k => l.text ++ s ++ q k := by
  have := hP.lines l.lines (hP a b _ _ _ hs ht)
  simpa only [Layout.text, List.append_assoc] using this

theorem values (items : Items EnumValue) (ht : P 1 t q) :
    P 1 (Items.text EnumValue.text items ++ t) fun k =>
      Items.text EnumValue.text items ++ q k := by
  induction items with
  | nil => exact ht
  | cons i items ih =>
    obtain ⟨l, v⟩ := i
    have := hP.item l (part_enumValue l.indent v 1) ih
    simpa only [Items.text, List.flatMap_cons, List.append_assoc] using this

theorem enum (l : Layout) (e : FlatBlock EnumValue) (ht : P 0 t q) :
    P 0 (l.text ++ e.text enumKeyword EnumValue.text ++ t) fun k =>
      l.text ++ e.text enumKeyword EnumValue.text ++ q k := by
  have hclose := hP.item e.last (part_rightBrace e.last.indent 0) ht
  have hvalues := hP.values e.items hclose
  have hopen := hP.item l (e.opener.part l.indent enumKeyword (by decide +kernel)
    (by decide +kernel) (by decide +kernel) 0) hvalues
  simpa only [FlatBlock.text, List.append_assoc] using hopen

end Absorbs

theorem tail_layout (l : Layout) : Tail 0 l.text 0 0 0 fun _ => l.text := by
  have hcalm := calm_ofBytes (mute_gap l.indent)
  have htext := Atoms.text_ofBytes l.indent.bytes
  have hheadless := Atoms.headless hcalm.plain hcalm.unopened
  have hcode := hcalm.code
  have hdepth := hcalm.depth 0
  rw [htext] at hheadless hcode hdepth
  have hfields : fields l.indent.bytes = [] := by
    refine fieldsFrom_eq_nil fun k _ => Or.inr fun d hd => ?_
    have hno : Ascii.equals ∉ l.indent.bytes.drop k := fun h =>
      (isGap_class (l.indent.all _ (List.mem_of_mem_drop h))).1 rfl
    rw [Declaration.front?_eq_none_of_not_mem hno] at hd
    simp at hd
  have hfront : Utf8.trailing l.indent.bytes = 0 := by
    have := trailing_gap l.indent (t := []) rfl
    rwa [List.append_nil] at this
  have hr := hheadless.rewrites hfront
  have hindent : Tail 0 l.indent.bytes 0 0 0 fun _ => l.indent.bytes := by
    refine ⟨hcode, hdepth, hheadless.matched, hfront, by rw [hfields]; rfl, hr.messages_eq,
      hr.total_eq, fun k => ?_, hr.started⟩
    rw [edits, hfields]
    exact hr.text_eq
  exact (absorbs_tail 0 0 0).lines l.lines hindent

theorem Tail.item (l : Layout) {a b f g m n c d : Nat} {s t : Bytes} {o q : Nat → Bytes}
    (hs : Part a b (l.indent.bytes ++ s) f m c fun k => l.indent.bytes ++ o k)
    (ht : Tail b t g n d q) :
    Tail a (l.text ++ s ++ t) (f + g) (m + n) (c + d) fun k => l.text ++ o k ++ q (k + f) := by
  have := (absorbs_tail _ _ _).lines l.lines (hs.prepend ht)
  simpa only [Layout.text, List.append_assoc] using this

/-- The fields of a oneof are direct fields of the message around it. -/
theorem Tail.members (items : Items FieldLine) {f m c : Nat} {t : Bytes} {q : Nat → Bytes}
    (ht : Tail 1 t f m c q) :
    Tail 1 (Items.text FieldLine.text items ++ t) (items.length + f) m c fun k =>
      Items.text FieldLine.text (numberItems k items) ++ q (k + items.length) := by
  induction items with
  | nil => simpa [Items.text, numberItems] using ht
  | cons i items ih =>
    obtain ⟨l, v⟩ := i
    have := Tail.item l (v.part l.indent 1) ih
    simpa only [Items.text, numberItems, List.flatMap_cons, List.append_assoc, List.length_cons,
      Nat.add_assoc, Nat.add_comm, Nat.add_left_comm, Nat.zero_add, Nat.add_zero] using this

theorem Tail.oneof (l : Layout) (e : FlatBlock FieldLine) {f m c : Nat} {t : Bytes}
    {q : Nat → Bytes} (ht : Tail 0 t f m c q) :
    Tail 0 (l.text ++ e.text oneofKeyword FieldLine.text ++ t) (e.items.length + f) m c fun k =>
      l.text ++ ({ e with items := numberItems k e.items } : FlatBlock FieldLine).text oneofKeyword
        FieldLine.text ++ q (k + e.items.length) := by
  have hclose := (absorbs_tail _ _ _).item e.last (part_rightBrace e.last.indent 0) ht
  have hmembers := Tail.members e.items hclose
  have hopen := (absorbs_tail _ _ _).item l (e.opener.part l.indent oneofKeyword
    (by decide +kernel) (by decide +kernel) (by decide +kernel) 0) hmembers
  simpa only [FlatBlock.text, List.append_assoc] using hopen

theorem Body.tail (b : Body) : ∃ direct nested, direct + nested = b.fields ∧
    Tail 0 b.text direct b.messages nested fun k => (b.number k).text := by
  induction b with
  | done last => exact ⟨0, 0, rfl, tail_layout last⟩
  | field l f rest ih =>
    obtain ⟨direct, nested, hfields, ht⟩ := ih
    refine ⟨1 + direct, nested, by rw [Body.fields, ← hfields, Nat.add_assoc], ?_⟩
    have := Tail.item l (f.part l.indent 0) ht
    rwa [Nat.zero_add, Nat.zero_add] at this
  | oneof l e rest ih =>
    obtain ⟨direct, nested, hfields, ht⟩ := ih
    refine ⟨e.items.length + direct, nested, by rw [Body.fields, ← hfields, Nat.add_assoc], ?_⟩
    exact Tail.oneof l e ht
  | enum l e rest ih =>
    obtain ⟨direct, nested, hfields, ht⟩ := ih
    exact ⟨direct, nested, hfields, (absorbs_tail _ _ _).enum l e ht⟩
  | option l o rest ih =>
    obtain ⟨direct, nested, hfields, ht⟩ := ih
    exact ⟨direct, nested, hfields, (absorbs_tail _ _ _).item l (part_option l.indent o 0) ht⟩
  | reserved l r rest ih =>
    obtain ⟨direct, nested, hfields, ht⟩ := ih
    exact ⟨direct, nested, hfields, (absorbs_tail _ _ _).item l (part_reserved l.indent r 0) ht⟩
  | message l o inner rest ihi ihr =>
    obtain ⟨idirect, inested, hinner, hi⟩ := ihi
    obtain ⟨direct, nested, hfields, ht⟩ := ihr
    refine ⟨direct, idirect + inested + nested, ?_, ?_⟩
    · rw [Body.fields, ← hinner, ← hfields]
      omega
    · have hpart := o.part_message l.indent hi 0
      simp only [List.append_assoc] at hpart
      have := Tail.item l hpart ht
      simpa only [Body.text, Body.number, Body.messages, List.append_assoc, Nat.zero_add,
        Nat.add_zero] using this

theorem rewrites_last (l : Layout) {s : Bytes} (hs : Headless (l.indent.bytes ++ s))
    (hfront : Utf8.trailing s = 0) : Rewrites (l.text ++ s) 0 0 (l.text ++ s) := by
  have := (absorbs_rewrites 0 0).lines (a := 0) (q := fun _ => l.indent.bytes ++ s) l.lines
    (hs.rewrites (trailing_gap l.indent hfront))
  simpa only [Layout.text, List.append_assoc] using this

theorem headless_lineComment (gap : Gap) {content : Bytes} (h : Ascii.newline ∉ content) :
    Headless (gap.bytes ++ ([Ascii.slash, Ascii.slash] ++ content)) := by
  rintro h' ⟨hh, hmask⟩
  have hm := Head.getElem?_start hh
  rcases Nat.lt_or_ge h'.start gap.bytes.length with hlt | hge
  · rw [List.getElem?_append_left hlt] at hm
    exact absurd (gap.all _ (List.mem_of_getElem? hm)) (by decide)
  obtain ⟨i, hi⟩ : ∃ i, h'.start = gap.bytes.length + i := ⟨h'.start - gap.bytes.length, by omega⟩
  have hcode := (calm_ofBytes (mute_gap gap)).code
  rw [Atoms.text_ofBytes] at hcode
  rw [hi, codeMask_append_right hcode] at hmask
  rcases i with _ | _ | i
  · exact absurd hmask (by simp [codeMask, codeMaskFrom, Mode.shows])
  · exact absurd hmask (by simp [codeMask, codeMaskFrom, Mode.shows, Mode.next, Mode.nextInCode])
  · have hlen := (List.getElem?_eq_some_iff.mp hmask).1
    rw [length_codeMask] at hlen
    have hsilent := (Mode.silent_line h).1.mask [] (i := i) (by simpa using hlen)
    rw [List.append_nil] at hsilent
    exact absurd (hsilent.symm.trans hmask) (by simp)

theorem TopStatement.parted (s : TopStatement) (gap : Gap) :
    Parted (gap.bytes ++ s.text) ∧ Headless (gap.bytes ++ s.text) ∧
      Utf8.trailing (gap.bytes ++ s.text) = 0 := by
  have hall : ∀ w ∈ topKeywords, Tame w ∧ w ≠ [] ∧ ∀ b ∈ w, b < 0x80 := by decide +kernel
  obtain ⟨htame, hne, hascii⟩ := hall _ s.isKeyword
  have hflat := ((flat_ofBytes ((mute_gap gap).tame.append htame)).append
    (flat_phrase (fun _ => isTame_of_isStatementByte) s.rest)).append
      (flat_byte (b := Ascii.semicolon) rfl rfl)
  have htext : gap.bytes ++ s.text = Atoms.text (Atoms.ofBytes (gap.bytes ++ s.keyword) ++
      s.rest.atoms ++ [.byte Ascii.semicolon]) := by
    simp [TopStatement.text, Phrase.bytes, Atom.text]
  have hfront : Utf8.trailing (gap.bytes ++ s.text) = 0 := by
    refine trailing_gap gap ?_
    obtain ⟨b, r, hbr⟩ := List.exists_cons_of_ne_nil hne
    rw [TopStatement.text, hbr]
    exact Utf8.trailing_cons_of_ascii (hascii b (by simp [hbr])) _
  refine ⟨?_, ?_, hfront⟩
  · rw [htext]
    exact Atoms.parted_byte hflat.plain (Or.inl rfl)
  · rw [htext]
    exact Atoms.headless hflat.plain hflat.unopened

/-- Renumbering a whole schema. -/
theorem Document.rewrites (d : Document) :
    Rewrites d.text d.messages d.fields d.number.text := by
  induction d with
  | done last =>
    have hcalm := calm_ofBytes (mute_gap last.indent)
    have hheadless := Atoms.headless hcalm.plain hcalm.unopened
    rw [Atoms.text_ofBytes] at hheadless
    have := rewrites_last last (s := []) (by rwa [List.append_nil]) rfl
    rwa [List.append_nil] at this
  | comment last content h =>
    have := rewrites_last last (headless_lineComment last.indent h)
      (Utf8.trailing_cons_of_ascii (by decide) _)
    simpa only [Document.text, Document.number, Document.messages, Document.fields,
      List.append_assoc] using this
  | statement l s rest ih =>
    obtain ⟨hparted, hheadless, hfront⟩ := s.parted l.indent
    have := (absorbs_rewrites _ _).lines (a := 0) (q := fun _ => _) l.lines
      ((hheadless.rewrites hfront).append hparted hheadless.matched ih)
    simpa only [Layout.text, Document.text, Document.number, Document.messages, Document.fields,
      List.append_assoc, Nat.zero_add] using this
  | enum l e rest ih => exact (absorbs_rewrites _ _).enum (q := fun _ => _) l e ih
  | message l o inner rest ih =>
    obtain ⟨direct, nested, hfields, hi⟩ := inner.tail
    have hpart := o.part_message l.indent hi 0
    have := (absorbs_rewrites _ _).lines (a := 0) (q := fun _ => _) l.lines
      ((o.rewrites_message l.indent hi).append hpart.toParted hpart.matched ih)
    simpa only [Layout.text, Document.text, Document.number, Document.messages, Document.fields,
      ← hfields, List.append_assoc] using this

end Schema

theorem Started.bodiesStart {t : Bytes} (ht : Started t) : BodiesStart t := by
  intro b hb
  obtain ⟨c, hc, hcont⟩ := ht b hb
  simp [Bytes.isBoundary, hc, hcont]

theorem length_claims (t : Bytes) : (claims t).length = fieldTotal t := by
  rw [claims, List.length_flatMap, fieldTotal]
  congr 1
  refine List.map_congr_left fun b _ => ?_
  rw [ownClaims, List.length_mapIdx]

/-- Renumbering a schema, whatever its layout, labels, types, options and old tags: every message's
direct fields get the tags 1, 2, 3, ... in their order, no other byte changes, and every message and
every field is counted once. There are no more fields than bytes, so below `2 ^ 64` bytes the count of
64 bits is their number. -/
theorem renumberDocument_schema (d : Schema.Document) :
    (renumberDocument .tracked d.text).text = d.number.text ∧
      (renumberDocument .tracked d.text).messages = d.messages ∧
      (renumberDocument .tracked d.text).fields = .ofNat d.fields ∧ d.fields ≤ d.text.length ∧
      (renumberDocument .tracked d.text).skipped = 0 := by
  have hd := d.rewrites
  have hsettled := renumberDocument_settled hd.started.bodiesStart
  have htotal : d.fields = fieldTotal d.text := by rw [← hd.total_eq, length_claims]
  refine ⟨?_, ?_, ?_, htotal ▸ fieldTotal_le d.text, Outcome.skipped_of_settled hsettled⟩
  · rw [hsettled.text, hd.text_eq]
  · rw [Outcome.messages_of_settled hsettled, List.length_reverse, hd.messages_eq]
  · rw [Outcome.fields_of_settled hsettled, List.map_reverse, List.sum_reverse, htotal, fieldTotal]

/-- The outer message goes on with its numbers behind the inner one. -/
example : ∃ d : Schema.Document,
    d.text = Ascii.word "message A { A a = 7; message A { A a = 70; } A a = 7; }" ∧
      d.number.text = Ascii.word "message A { A a = 1; message A { A a = 1; } A a = 2; }" := by
  let gap : Schema.Word Ascii.isGap := ⟨⟨[Ascii.space], by decide +kernel⟩, by simp⟩
  let blank : Schema.CharWord isBlank :=
    ⟨⟨[Ascii.space], [⟨0x20, by decide⟩], rfl, by simp; rfl⟩, by simp⟩
  let opener : Schema.Opener := ⟨blank, ⟨0x41, ⟨[], by simp⟩, rfl⟩, blank.toCharRun⟩
  let line (digits : Bytes) (h : digits.IsNumber) : Schema.FieldLine :=
    ⟨none, .word ⟨⟨[0x41], by decide +kernel⟩, by simp⟩ (by decide +kernel), gap,
      ⟨0x61, ⟨[], [], rfl, by simp⟩, rfl⟩, gap.toRun, gap.toRun, ⟨digits, h.1, h.2⟩,
      ⟨[], by simp⟩, none⟩
  let layout : Schema.Layout := ⟨[], gap.toRun⟩
  let last : Schema.Body := .field layout (line [0x37] (by decide +kernel)) (.done layout)
  let inner : Schema.Body :=
    .field layout (line [0x37, 0x30] (by decide +kernel)) (.done layout)
  exact ⟨.message ⟨[], ⟨[], by simp⟩⟩ opener
    (.field layout (line [0x37] (by decide +kernel)) (.message layout opener inner last))
    (.done ⟨[], ⟨[], by simp⟩⟩), by decide +kernel, by decide +kernel⟩

end FieldTags
