import FieldTags.Proofs.Disk.Paths

/-! Reading what was written. A path reads a file exactly where a write to it would go, so two paths
share their file if and only if writes to them have the same target. -/
namespace FieldTags
namespace FileTree
variable {t t' : FileTree} {l r : Location} {path other : Bytes} {c content : Bytes}

theorem takes_of_target (h : t.target path = .ok l) : t.Takes l := by
  obtain ⟨folder, name, hnames, hfree, rfl⟩ := names_of_target h
  exact ⟨by rw [List.dropLast_concat]; exact hnames.isFolder, hfree⟩

theorem read_eq_ok_iff :
    t.read path = .ok c ↔ ∃ l, t.target path = .ok l ∧ t.entry? l = some (.file c) := by
  constructor
  · intro h
    obtain ⟨l, hl, h⟩ := exists_ok_of_bind_eq_ok h
    cases heq : t.entry? l with
    | none => simp [heq] at h
    | some e =>
      cases e with
      | folder inner => simp [heq] at h
      | file content =>
        have hfree : t.isFolderAt l = false := by
          rw [isFolderAt, heq]
        obtain ⟨folder, name, hnames, rfl⟩ := names_of_locate hl hfree
        obtain rfl : content = c := by simpa [heq] using h
        exact ⟨_, hnames.target hfree, heq⟩
  · rintro ⟨l, hl, heq⟩
    obtain ⟨folder, name, hnames, hfree, rfl⟩ := names_of_target hl
    rw [read, hnames.locate (by rw [heq]; rfl)]
    simp only [bind, Except.bind, heq]

theorem target_ne_of_read (hread : t.read path = .ok c) (hnone : t.entry? l = none) :
    t.target path ≠ .ok l := by
  intro hl
  obtain ⟨r, hr, hfile⟩ := read_eq_ok_iff.mp hread
  obtain rfl : l = r := Except.ok.inj (hl.symm.trans hr)
  rw [hnone] at hfile
  exact absurd hfile nofun

theorem write_eq_ok_iff :
    t.write path content = .ok t' ↔ ∃ l, t.target path = .ok l ∧ t' = t.place l content := by
  rw [write]
  cases t.target path with
  | error e => exact ⟨nofun, nofun⟩
  | ok l =>
    constructor
    · exact fun h => ⟨l, rfl, (Except.ok.inj h).symm⟩
    · rintro ⟨r, hr, rfl⟩
      cases hr
      rfl

theorem place_of_entry? (h : t.entry? l = some (.file content)) : t.place l content = t := by
  have hput := Dir.put_of_lookup t.ordered h
  cases t
  simp only [place, hput]

theorem editedAt_write (h : t.write path content = .ok t') (hl : t.target path = .ok l) :
    t.EditedAt l t' := by
  obtain ⟨r, hr, rfl⟩ := write_eq_ok_iff.mp h
  obtain rfl : l = r := Except.ok.inj (hl.symm.trans hr)
  exact editedAt_place (takes_of_target hl) content

theorem target_write_iff (h : t.write path content = .ok t') :
    t'.target other = .ok r ↔ t.target other = .ok r := by
  obtain ⟨l, hl, -⟩ := write_eq_ok_iff.mp h
  exact (editedAt_write h hl).sameFolders.target_iff

theorem target_write (h : t.write path content = .ok t') (hr : t.target other = .ok r) :
    t'.target other = .ok r :=
  (target_write_iff h).mpr hr

theorem locate_of_target (h : t.target path = .ok l) (hthere : (t.entry? l).isSome = true) :
    t.locate path = .ok l := by
  obtain ⟨folder, name, hnames, -, rfl⟩ := names_of_target h
  exact hnames.locate hthere

theorem isPresent_iff : t.isPresent path = true ↔
    ∃ l, t.locate path = .ok l ∧ (t.entry? l).isSome = true := by
  rw [isPresent, find?]
  cases t.locate path with
  | error e => exact ⟨nofun, nofun⟩
  | ok l =>
    constructor
    · exact fun h => ⟨l, rfl, h⟩
    · rintro ⟨r, hr, h⟩
      rwa [Except.ok.inj hr]

theorem isPresent_iff_of_target (h : t.target path = .ok l) :
    t.isPresent path = true ↔ (t.entry? l).isSome = true := by
  rw [isPresent_iff]
  constructor
  · rintro ⟨r, hr, hthere⟩
    obtain ⟨folder, name, hnames, -, rfl⟩ := names_of_target h
    rwa [hnames.eq_of_locate hr] at hthere
  · exact fun hthere => ⟨l, locate_of_target h hthere, hthere⟩

theorem entry?_write_self (h : t.write path content = .ok t') (hl : t.target path = .ok l) :
    t'.entry? l = some (.file content) := by
  obtain ⟨r, hr, rfl⟩ := write_eq_ok_iff.mp h
  obtain rfl : l = r := Except.ok.inj (hl.symm.trans hr)
  exact entry?_place_self (takes_of_target hl) content

theorem entry?_write_of_ne (h : t.write path content = .ok t') (hl : t.target path ≠ .ok l)
    (hc : t.entry? l = some (.file c)) : t'.entry? l = some (.file c) := by
  obtain ⟨r, hr, -⟩ := write_eq_ok_iff.mp h
  have hne : l ≠ r := fun hlr => hl (hlr.symm ▸ hr)
  exact ((editedAt_write h hr).entry?_eq_file_iff hne).mpr hc

theorem entry?_write_new {e : Entry Bytes} (h : t.write path content = .ok t')
    (hnone : t.entry? l = none) (he : t'.entry? l = some e) :
    t.target path = .ok l ∧ e = .file content := by
  obtain ⟨r, hr, rfl⟩ := write_eq_ok_iff.mp h
  have hplace := content?_place (takes_of_target hr) content l
  rw [he, hnone] at hplace
  split at hplace
  · rename_i hlr
    exact ⟨hlr.symm ▸ hr, Entry.content?_eq_some_iff.mp (Option.some.inj hplace)⟩
  · exact absurd hplace nofun

theorem isPresent_write (h : t.write path content = .ok t') (hthere : t.isPresent other = true) :
    t'.isPresent other = true := by
  obtain ⟨l, hl, rfl⟩ := write_eq_ok_iff.mp h
  obtain ⟨r, hr, hthere⟩ := isPresent_iff.mp hthere
  obtain ⟨start, hstart, hfollow⟩ := exists_ok_of_bind_eq_ok hr
  have htakes := takes_of_target hl
  have hlocate : (t.place l content).locate other = .ok r := by
    rw [locate, startOf_place, hstart]
    exact follow_place htakes content hfollow
  exact isPresent_iff.mpr ⟨r, hlocate, isSome_entry?_place htakes content hthere⟩

theorem write_again (h : t.write path content = .ok t') : t'.write path content = .ok t' := by
  obtain ⟨l, hl, -⟩ := write_eq_ok_iff.mp h
  have hsame := place_of_entry? (entry?_write_self h hl)
  exact write_eq_ok_iff.mpr ⟨l, target_write h hl, hsame.symm⟩

theorem read_write (h : t.write path content = .ok t') (hsame : t.target other = t.target path) :
    t'.read other = .ok content := by
  obtain ⟨l, hl, -⟩ := write_eq_ok_iff.mp h
  exact read_eq_ok_iff.mpr ⟨l, target_write h (hsame.trans hl), entry?_write_self h hl⟩

theorem read_write_of_ne (h : t.write path content = .ok t')
    (hne : t.target other ≠ t.target path) (hread : t.read other = .ok c) :
    t'.read other = .ok c := by
  obtain ⟨r, hr, heq⟩ := read_eq_ok_iff.mp hread
  have hother : t.target path ≠ .ok r := fun hl => hne (hr.trans hl.symm)
  exact read_eq_ok_iff.mpr ⟨r, target_write h hr, entry?_write_of_ne h hother heq⟩

theorem read_copy_overwrite {t₁ t₂ : FileTree} {copy : Bytes} {old new : Bytes}
    (hold : t.read path = .ok old) (hcopy : t.write copy old = .ok t₁)
    (hnew : t₁.write path new = .ok t₂) :
    t₂.read path = .ok new ∧
    (t₂.read copy = .ok old ↔ t.target copy ≠ t.target path ∨ new = old) := by
  obtain ⟨l, hl, -⟩ := read_eq_ok_iff.mp hold
  obtain ⟨r, hr, -⟩ := write_eq_ok_iff.mp hcopy
  have hl₁ := target_write hcopy hl
  have hr₁ := target_write hcopy hr
  refine ⟨read_write hnew rfl, ?_⟩
  rw [hl, hr]
  by_cases hrl : r = l
  · have hsame : t₁.target copy = t₁.target path := by rw [hl₁, hr₁, hrl]
    rw [read_write hnew hsame, hrl]
    simp
  · have hread := read_write_of_ne hnew (by rw [hl₁, hr₁]; simpa using hrl) (read_write hcopy rfl)
    simp [hread, hrl]

def Free (t : FileTree) (path : Bytes) (content : Bytes) : Prop :=
  t.isPresent path = false ∨ t.read path = .ok content

theorem not_free_iff :
    ¬ t.Free path content ↔ t.isPresent path = true ∧ t.read path ≠ .ok content := by
  rw [Free, not_or, Bool.not_eq_false]

theorem free_iff_of_target (hl : t.target path = .ok l) :
    t.Free path content ↔ t.entry? l = none ∨ t.entry? l = some (.file content) := by
  have hread : t.read path = .ok content ↔ t.entry? l = some (.file content) := by
    rw [read_eq_ok_iff]
    constructor
    · rintro ⟨r, hr, hfile⟩
      rwa [Except.ok.inj (hl.symm.trans hr)]
    · exact fun hfile => ⟨l, hl, hfile⟩
  rw [Free, hread, ← Bool.not_eq_true, isPresent_iff_of_target hl, Bool.not_eq_true,
    Option.isSome_eq_false_iff, Option.isNone_iff_eq_none]

theorem Free.content_eq (h : t.Free path content) (hl : t.target path = .ok l)
    (hc : t.entry? l = some (.file c)) : c = content := by
  cases (free_iff_of_target hl).mp h with
  | inl hnone =>
    rw [hnone] at hc
    exact absurd hc nofun
  | inr hsame => exact Entry.file.inj (Option.some.inj (hc.symm.trans hsame))

theorem free_of_write (hother : t.Free other content) (h : t.write other content = .ok t')
    (hfree : t'.Free path content) : t.Free path content := by
  cases hfree with
  | inl habsent =>
    refine .inl (Bool.eq_false_iff.mpr fun hthere => ?_)
    rw [isPresent_write h hthere] at habsent
    exact absurd habsent nofun
  | inr hread =>
    obtain ⟨l, hl, -⟩ := write_eq_ok_iff.mp h
    obtain ⟨r, hr, hfile⟩ := read_eq_ok_iff.mp hread
    rw [target_write_iff h] at hr
    by_cases hrl : r = l
    · rw [free_iff_of_target hr, hrl, ← free_iff_of_target hl]
      exact hother
    · have hthere := ((editedAt_write h hl).entry?_eq_file_iff hrl).mp hfile
      exact .inr (read_eq_ok_iff.mpr ⟨r, hr, hthere⟩)

theorem target_append_ne {suffix : Bytes} (hne : suffix ≠ []) (hslash : Ascii.slash ∉ suffix)
    (hl : t.target path = .ok l) : t.target (path ++ suffix) ≠ .ok l := by
  intro hsuffix
  obtain ⟨before, last, hparts, hmore⟩ := Path.exists_parts_append hslash path
  obtain ⟨folder, name, ⟨⟨_, _, -, hname, -⟩, -, -⟩, -, hold⟩ := names_of_target hl
  obtain ⟨folder', name', ⟨⟨_, _, -, hname', -⟩, -, -⟩, -, hnew⟩ := names_of_target hsuffix
  have hlast := (List.append_inj' (hname.symm.trans hparts) rfl).2
  have hlast' := (List.append_inj' (hname'.symm.trans hmore) rfl).2
  have hboth := (List.append_inj' (hold.symm.trans hnew) rfl).2
  rw [hlast, hlast'] at hboth
  exact hne (List.self_eq_append_right.mp (List.cons.inj hboth).1)

end FileTree
end FieldTags
