import FieldTags.Proofs.Command.Spared

/-! Runs on one file, with edits of it by hand between them. Every backup that was ever reported keeps
the text that it was made for: an edit changes the one file only, and a run puts a text over nothing else
than the same text, except for the one file, to which no backup path leads. -/
namespace FieldTags
open InMemory

/-! Keeping one text. -/

namespace Backup

/-- How keeping a text ends, and what becomes of the tree. -/
inductive WriteResult (path : Bytes) (suffix : String) (content : Bytes) (t : FileTree) :
    Except Trouble Bytes → FileTree → Prop where
  | kept {backup : Bytes} {t' : FileTree} (hplace : Place path suffix content t (.ok backup))
      (hkept : t.write backup content = .ok t') : WriteResult path suffix content t (.ok backup) t'
  | unwritable {backup : Bytes} {e : DiskError} (hplace : Place path suffix content t (.ok backup))
      (hkept : t.write backup content = .error e) :
    WriteResult path suffix content t
      (.error ⟨some s!"Failed to write backup for {path.toText}", .fileWrite backup e⟩) t
  | conflict {f : Failure} (hplace : Place path suffix content t (.error f)) :
    WriteResult path suffix content t (.error ⟨none, f⟩) t

section
variable {path backup : Bytes} {suffix : String} {content : Bytes} {t t' : FileTree}
  {r : Except Trouble Bytes}

theorem ends_write (verbosity : Nat) (h : WriteResult path suffix content t r t') :
    Ends (write verbosity path suffix content) t r t' := by
  cases h with
  | kept hplace hkept => exact ends_write_ok hplace hkept
  | unwritable hplace hkept => exact ends_write_unwritable hplace hkept
  | conflict hplace => exact ends_write_conflict hplace

theorem exists_writeResult (path : Bytes) (suffix : String) (content : Bytes) (t : FileTree) :
    ∃ r t', WriteResult path suffix content t r t' := by
  obtain ⟨r, hplace⟩ := exists_place path suffix content t
  cases r with
  | error f => exact ⟨_, _, .conflict hplace⟩
  | ok backup =>
    cases hkept : t.write backup content with
    | error e => exact ⟨_, _, .unwritable hplace hkept⟩
    | ok t' => exact ⟨_, _, .kept hplace hkept⟩

theorem writeResult_onTree (verbosity : Nat) (path : Bytes) (suffix : String) (content : Bytes) (t : FileTree) :
    WriteResult path suffix content t (onTree (write verbosity path suffix content) t).1
      (onTree (write verbosity path suffix content) t).2 := by
  obtain ⟨r, t', h⟩ := exists_writeResult path suffix content t
  rwa [(ends_write verbosity h).onTree]

theorem WriteResult.of_ok (h : WriteResult path suffix content t (.ok backup) t') :
    Place path suffix content t (.ok backup) ∧ t.write backup content = .ok t' := by
  cases h with
  | kept hplace hkept => exact ⟨hplace, hkept⟩

theorem Place.exists_error_iff {q : Except Failure Bytes} (h : Place path suffix content t q) :
    (∃ f, q = .error f) ↔ ¬ t.Free (plainPath path suffix) content ∧
      ¬ t.Free (hashedPath path suffix content) content := by
  cases h with
  | plain hplain => simp [hplain]
  | hashed hplain hhashed => simp [hhashed]
  | conflict hplain hhashed => simp [hplain, hhashed]

theorem WriteResult.exists_conflict_iff (h : WriteResult path suffix content t r t') :
    (∃ context taken, r = .error ⟨context, .backupExists taken⟩) ↔
      ¬ t.Free (plainPath path suffix) content ∧
        ¬ t.Free (hashedPath path suffix content) content := by
  cases h with
  | kept hplace | unwritable hplace =>
    rw [← hplace.exists_error_iff]
    simp
  | conflict hplace =>
    rw [← hplace.exists_error_iff]
    cases hplace with
    | conflict => simp

theorem Place.after_write (h : Place path suffix content t (.ok backup))
    (hkept : t.write backup content = .ok t') : Place path suffix content t' (.ok backup) := by
  have hhere : t'.Free backup content := .inr (FileTree.read_write hkept rfl)
  cases h with
  | plain => exact .plain hhere
  | hashed hplain hhashed =>
    exact .hashed (fun hfree => hplain (FileTree.free_of_write hhashed hkept hfree)) hhere

theorem WriteResult.again (h : WriteResult path suffix content t (.ok backup) t') :
    WriteResult path suffix content t' (.ok backup) t' := by
  obtain ⟨hplace, hkept⟩ := h.of_ok
  exact .kept (hplace.after_write hkept) (FileTree.write_again hkept)

end
end Backup

/-! The history of one file. -/

/-- A file of a run: the text that was found under its path, and what was reported of it. -/
structure Handled where
  path : Bytes
  found : Except DiskError Bytes
  report : Except Trouble Report

/-- The files of a run in turn, each as the run found it. -/
def FileTree.handled (o : Options) : FileTree → List Bytes → List Handled
  | _, [] => []
  | t, path :: paths => ⟨path, t.read path, t.result o path⟩ :: (t.processed o path).handled o paths

theorem ledger_eq_map_handled (o : Options) (t : FileTree) (paths : List Bytes) :
    t.ledger o paths = (t.handled o paths).map fun h => (h.path, h.report) := by
  induction paths generalizing t with
  | nil => rfl
  | cons path paths ih => rw [FileTree.ledger, FileTree.handled, List.map_cons, ih]

/-- What one file can go through, in any order and any number of times: it is edited by hand, which
includes that it comes into being or goes away, and it is what all inputs of a command lead to, under
whatever names. The record is of all that the commands handled so far. -/
inductive History (l : FileTree.Location) : FileTree → List Handled → Prop where
  | start (t : FileTree) : History l t []
  | edit {t t' : FileTree} {record : List Handled} (before : History l t record)
      (hedit : t.EditedAt l t') : History l t' record
  | run {t : FileTree} {record : List Handled} (before : History l t record)
      {suffix : Option String} {args : List String} {o : Options}
      (hread : Options.read suffix args = .ok o) (hsuffix : o.backupSuffix ≠ "")
      (hslash : '/' ∉ o.backupSuffix.toList)
      (hinputs : ∀ path ∈ t.inputs o, t.target path = .ok l) :
    History l (onTree (command suffix args) t).2 (record ++ t.handled o (t.inputs o))

/-- If a backup was reported, it holds the text that was found, and is not the file itself. -/
def Handled.Safe (h : Handled) (l : FileTree.Location) (t : FileTree) : Prop :=
  ∀ backup, h.report = .ok (.renumbered (some backup)) → ∃ old r, h.found = .ok old ∧ r ≠ l ∧
    t.target backup = .ok r ∧ t.entry? r = some (.file old)

namespace Handled.Safe
variable {h : Handled} {l : FileTree.Location} {t t' : FileTree} {o : Options} {path backup : Bytes}

theorem edit (hsafe : h.Safe l t) (hedit : t.EditedAt l t') : h.Safe l t' := by
  intro backup hreport
  obtain ⟨old, r, hfound, hr, htarget, hfile⟩ := hsafe backup hreport
  exact ⟨old, r, hfound, hr, hedit.sameFolders.target_iff.mpr htarget,
    (hedit.entry?_eq_file_iff hr).mpr hfile⟩

theorem step {q : Except Trouble Report} (hsafe : h.Safe l t) (hstep : FileStep o path t q t')
    (hpath : t.target path = .ok l) : h.Safe l t' := by
  intro backup hreport
  obtain ⟨old, r, hfound, hr, htarget, hfile⟩ := hsafe backup hreport
  have hother : t.target path ≠ .ok r := fun hsame => hr (Except.ok.inj (hsame.symm.trans hpath))
  exact ⟨old, r, hfound, hr, (hstep.target_iff backup).mpr htarget, hstep.entry?_of_ne hother hfile⟩

theorem new {q : Except Trouble Report} (hstep : FileStep o path t q t')
    (hpath : t.target path = .ok l) (hsuffix : o.backupSuffix ≠ "")
    (hslash : '/' ∉ o.backupSuffix.toList) : Safe ⟨path, t.read path, q⟩ l t' := by
  intro backup hreport
  cases hstep with
  | stays hr => exact absurd hreport (hr _)
  | plain => exact absurd hreport nofun
  | @backed old _ between _ _ _ hread _ hchoose hkept hnew =>
    cases hreport
    obtain ⟨s, hrun⟩ := exists_run_of_onTree hchoose
    obtain ⟨r, hr, -⟩ := FileTree.write_eq_ok_iff.mp hkept
    have hapart : t.target backup ≠ t.target path :=
      mt (Backup.target_eq_iff_of_choose hslash hread hrun).mp hsuffix
    have hrl : r ≠ l := fun hsame => hapart (hr.trans (hsame ▸ hpath.symm))
    have hother : between.target path ≠ .ok r := by
      rw [Ne, FileTree.target_write_iff hkept, ← hr]
      exact hapart.symm
    refine ⟨old, r, hread, hrl, ?_, ?_⟩
    · rwa [FileTree.target_write_iff hnew, FileTree.target_write_iff hkept]
    · exact FileTree.entry?_write_of_ne hnew hother (FileTree.entry?_write_self hkept hr)

end Handled.Safe

section
variable {l : FileTree.Location} {t : FileTree} {record : List Handled} {o : Options}

/-- A run from step to step, on top of what was recorded before. -/
theorem safe_foldl_processed (hsuffix : o.backupSuffix ≠ "") (hslash : '/' ∉ o.backupSuffix.toList)
    (paths : List Bytes) (hpaths : ∀ path ∈ paths, t.target path = .ok l)
    (hsafe : ∀ h ∈ record, h.Safe l t) :
    ∀ h ∈ record ++ t.handled o paths, h.Safe l (paths.foldl (FileTree.processed o) t) := by
  induction paths generalizing t record with
  | nil => simpa [FileTree.handled] using hsafe
  | cons path paths ih =>
    obtain ⟨hpath, hlater⟩ := List.forall_mem_cons.mp hpaths
    have hstep := fileStep_processed o t path
    have hrecord : ∀ h ∈ record ++ [⟨path, t.read path, t.result o path⟩],
        h.Safe l (t.processed o path) := by
      intro h hh
      rcases List.mem_append.mp hh with hh | hh
      · exact (hsafe h hh).step hstep hpath
      · rw [List.mem_singleton.mp hh]
        exact .new hstep hpath hsuffix hslash
    have hrun := ih (fun other hother => (hstep.target_iff other).mpr (hlater other hother)) hrecord
    rw [List.append_assoc] at hrun
    exact hrun

theorem History.safe (h : History l t record) : ∀ h ∈ record, h.Safe l t := by
  induction h with
  | start t => exact nofun
  | edit before hedit ih => exact fun h hh => (ih h hh).edit hedit
  | @run t record _ suffix args o hread hsuffix hslash hinputs ih =>
    have htree : (onTree (command suffix args) t).2 =
        (t.inputs o).foldl (FileTree.processed o) t := tree_command suffix args ⟨t, []⟩ hread
    rw [htree]
    exact safe_foldl_processed hsuffix hslash (t.inputs o) hinputs ih

end

/-- Keeping a text fails with a conflict exactly if both paths are taken by something else. Where it
goes, there was nothing or just this text, no other file changes, and to keep it once more changes
nothing at all. So through any history of runs on one file and edits of it, every backup that was
reported holds the text that was replaced then, and two runs report one backup only for one text. -/
theorem backups_hold_originals :
    (∀ (verbosity again : Nat) (path : Bytes) (suffix : String) (content : Bytes) (t : FileTree),
      let plain := Backup.plainPath path suffix
      let hashed := Backup.hashedPath path suffix content
      let result := onTree (Backup.write verbosity path suffix content) t
      ((∃ context taken, result.1 = .error ⟨context, .backupExists taken⟩) ↔
        (t.isPresent plain = true ∧ t.read plain ≠ .ok content) ∧
          t.isPresent hashed = true ∧ t.read hashed ≠ .ok content) ∧
      ∀ backup, result.1 = .ok backup →
        (t.isPresent backup = false ∨ t.read backup = .ok content) ∧
        result.2.read backup = .ok content ∧
        (∃ l, t.target backup = .ok l ∧ t.EditedAt l result.2) ∧
        onTree (Backup.write again path suffix content) result.2 = (.ok backup, result.2)) ∧
    ∀ (l : FileTree.Location) (t : FileTree) (record : List Handled), History l t record →
      (∀ h ∈ record, ∀ backup, h.report = .ok (.renumbered (some backup)) →
        ∃ original, h.found = .ok original ∧ t.read backup = .ok original) ∧
      ∀ h₁ ∈ record, ∀ h₂ ∈ record, ∀ backup, h₁.report = .ok (.renumbered (some backup)) →
        h₂.report = .ok (.renumbered (some backup)) → h₁.found = h₂.found := by
  refine ⟨?_, ?_⟩
  · intro verbosity again path suffix content t plain hashed result
    have hresult : Backup.WriteResult path suffix content t result.1 result.2 :=
      Backup.writeResult_onTree verbosity path suffix content t
    refine ⟨?_, fun backup hbackup => ?_⟩
    · rw [hresult.exists_conflict_iff, FileTree.not_free_iff, FileTree.not_free_iff]
    · rw [hbackup] at hresult
      obtain ⟨hplace, hkept⟩ := hresult.of_ok
      obtain ⟨l, hl, -⟩ := FileTree.write_eq_ok_iff.mp hkept
      exact ⟨hplace.free, FileTree.read_write hkept rfl, ⟨l, hl, FileTree.editedAt_write hkept hl⟩,
        (Backup.ends_write again hresult.again).onTree⟩
  · intro l t record hhistory
    have hkept : ∀ h ∈ record, ∀ backup, h.report = .ok (.renumbered (some backup)) →
        ∃ original, h.found = .ok original ∧ t.read backup = .ok original := by
      intro h hh backup hreport
      obtain ⟨original, r, hfound, -, htarget, hfile⟩ := hhistory.safe h hh backup hreport
      exact ⟨original, hfound, FileTree.read_eq_ok_iff.mpr ⟨r, htarget, hfile⟩⟩
    refine ⟨hkept, ?_⟩
    intro h₁ hh₁ h₂ hh₂ backup hreport₁ hreport₂
    obtain ⟨original, hfound₁, hread⟩ := hkept h₁ hh₁ backup hreport₁
    obtain ⟨original', hfound₂, hread'⟩ := hkept h₂ hh₂ backup hreport₂
    rw [hfound₁, hfound₂, ← hread, ← hread']

/-- The file is edited between two runs, so the second text goes to the other path. -/
theorem backups_hold_originals_edited :
    let file := Ascii.word "a.proto"
    let plain := Ascii.word "a.proto.bak"
    let old := Ascii.word "message M { int32 a = 5; }"
    let edited := Ascii.word "message M { int32 b = 7; }"
    let hashed := Backup.hashedPath file ".bak" edited
    let first := (onTree (command none ["a.proto"]) ((FileTree.atFolder []).addFile [file] old)).2
    let between := first.place [file] edited
    let last := (onTree (command none ["a.proto"]) between).2
    (last.read plain = .ok old ∧ last.read hashed = .ok edited) ∧
      let kept := onTree (Backup.write 0 file ".bak" edited) between
      kept.1 = .ok hashed ∧
        onTree (Backup.write 0 file ".bak" edited) kept.2 = (.ok hashed, kept.2) := by
  intro file plain old edited hashed first between last
  let o : Options := ⟨[file], 0, false, false, false, ".bak", false, none⟩
  let start : FileTree := (FileTree.atFolder []).addFile [file] old
  have hread : Options.read none ["a.proto"] = .ok o := by decide +kernel
  have hinputs : start.inputs o = [file] ∧ between.inputs o = [file] := by decide +kernel
  have hfirst : History [file] first _ :=
    .run (.start start) hread (by decide) (by decide) (by decide +kernel)
  have htarget : first.target file = .ok [file] := by decide +kernel
  have hedit : first.EditedAt [file] between :=
    FileTree.editedAt_place (FileTree.takes_of_target htarget) edited
  have hlast : History [file] last _ :=
    .run (.edit hfirst hedit) hread (by decide) (by decide) (by decide +kernel)
  rw [hinputs.1, hinputs.2] at hlast
  obtain ⟨hkept, -⟩ := backups_hold_originals.2 _ _ _ hlast
  refine ⟨⟨?_, ?_⟩, ?_⟩
  · obtain ⟨original, hfound, hbackup⟩ := hkept ⟨file, start.read file, _⟩
      (List.mem_cons_self ..) plain (by decide +kernel)
    have hold : start.read file = .ok old := by decide +kernel
    rw [hbackup, ← hfound, hold]
  · obtain ⟨original, hfound, hbackup⟩ := hkept ⟨file, between.read file, _⟩
      (List.mem_cons_of_mem _ (List.mem_cons_self ..)) hashed (by decide +kernel)
    have hnew : between.read file = .ok edited := by decide +kernel
    rw [hbackup, ← hfound, hnew]
  · have hwrite : (onTree (Backup.write 0 file ".bak" edited) between).1 = .ok hashed := by
      decide +kernel
    obtain ⟨-, hcase⟩ := backups_hold_originals.1 0 0 file ".bak" edited between
    exact ⟨hwrite, (hcase hashed hwrite).2.2.2⟩

end FieldTags
