import FieldTags.Proofs.Command.Backup

/-! No content is lost in a run. One input may be the backup of another, or come under several names;
but each step keeps the old text under a name of its own before it overwrites the file, and puts it over
nothing else than the same text. -/
namespace FieldTags

def FileTree.HasContent (t : FileTree) (c : Bytes) : Prop := ∃ l, t.entry? l = some (.file c)

/-- Every content is still there once a file was copied elsewhere and overwritten. -/
theorem FileTree.hasContent_copy_overwrite {t t₁ t₂ : FileTree} {path copy : Bytes}
    {old new c : Bytes} (hold : t.read path = .ok old) (hfree : t.Free copy old)
    (hcopy : t.write copy old = .ok t₁) (hnew : t₁.write path new = .ok t₂)
    (hapart : t.target copy ≠ t.target path) (hc : t.HasContent c) : t₂.HasContent c := by
  obtain ⟨l, hl⟩ := hc
  obtain ⟨there, hpath, hfile⟩ := read_eq_ok_iff.mp hold
  obtain ⟨kept, hkept, -⟩ := write_eq_ok_iff.mp hcopy
  by_cases hsame : c = old
  · have hother : t₁.target path ≠ .ok kept := by
      rw [Ne, target_write_iff hcopy, ← hkept]
      exact hapart.symm
    rw [hsame]
    exact ⟨kept, entry?_write_of_ne hnew hother (entry?_write_self hcopy hkept)⟩
  · have hcopied : t.target copy ≠ .ok l := fun h => hsame (hfree.content_eq h hl)
    have hother : t₁.target path ≠ .ok l := by
      rw [Ne, target_write_iff hcopy]
      intro h
      obtain rfl : l = there := Except.ok.inj (h.symm.trans hpath)
      rw [hl] at hfile
      exact hsame (Entry.file.inj (Option.some.inj hfile))
    exact ⟨l, entry?_write_of_ne hnew hother (entry?_write_of_ne hcopy hcopied hl)⟩

theorem FileStep.hasContent {o : Options} {path : Bytes} {t t' : FileTree} {c : Bytes}
    {r : Except Trouble Report} (h : FileStep o path t r t') (hkeep : o.noBackup = false)
    (hsuffix : o.backupSuffix ≠ "") (hslash : '/' ∉ o.backupSuffix.toList) (hc : t.HasContent c) :
    t'.HasContent c := by
  cases h with
  | stays hr => exact hc
  | plain _ hplain =>
    rw [hkeep] at hplain
    exact absurd hplain nofun
  | @backed old backup between _ _ _ hread _ hchoose hkept hnew =>
    obtain ⟨s, hrun⟩ := InMemory.exists_run_of_onTree hchoose
    have hapart : t.target backup ≠ t.target path :=
      mt (Backup.target_eq_iff_of_choose hslash hread hrun).mp hsuffix
    exact FileTree.hasContent_copy_overwrite hread (Backup.free_of_choose hrun) hkept hnew hapart hc

/-- Whatever the inputs of a run are, in whatever order and under whatever names, and whether some of
them fail: as long as backups are kept under a suffix with something in it and without a slash, every
content that a file had before is that of a file afterwards. -/
theorem command_hasContent {suffix : Option String} {args : List String} {s : Session} {c : Bytes}
    (h : ∀ o, Options.read suffix args = .ok o →
      o.noBackup = false ∧ o.backupSuffix ≠ "" ∧ '/' ∉ o.backupSuffix.toList)
    (hc : s.tree.HasContent c) :
    FileTree.HasContent ((command suffix args : InMemory _).run s).2.tree c := by
  refine command_invariant suffix args s (P := fun t => t.HasContent c) hc ?_
  intro o ho t ht path _
  obtain ⟨hkeep, hsuffix, hslash⟩ := h o ho
  exact (fileStep_processed o t path).hasContent hkeep hsuffix hslash ht

/-- Here the second input is the first one under another name, and the third one its backup. -/
theorem command_hasContent_aliased :
    let old := Ascii.word "message M { int32 a = 5; }"
    let s : Session := ⟨(FileTree.atFolder []).addFile [Ascii.word "a.proto"] old, []⟩
    let args := ["a.proto", "./a.proto", "a.proto.bak"]
    let o : Options := ⟨args.map Bytes.ofString, 0, false, false, false, ".bak", false, none⟩
    Options.read none args = .ok o ∧
      FileTree.HasContent ((command none args : InMemory _).run s).2.tree old := by
  intro old s args o
  have hread : Options.read none args = .ok o := by decide +kernel
  have hold : s.tree.HasContent old :=
    ⟨[Ascii.word "a.proto"], FileTree.entry?_eq_file_iff.mpr (by decide +kernel)⟩
  refine ⟨hread, command_hasContent (fun other hother => ?_) hold⟩
  obtain rfl : o = other := Except.ok.inj (hread.symm.trans hother)
  exact ⟨rfl, by decide, by decide⟩

end FieldTags
