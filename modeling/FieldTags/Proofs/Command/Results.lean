import FieldTags.Command.Run
import FieldTags.Proofs.Command.Effects
import FieldTags.Proofs.Disk.Writing

/-! What comes of one file. The rules tell the report and the tree from what is found under the path, and
from the paths that are free for a backup; there is just one way to follow them. -/
namespace FieldTags
open InMemory

/-- Where the backup of a text goes: to the first of two paths that is free for it. -/
inductive Backup.Place (path : Bytes) (suffix : String) (content : Bytes) (t : FileTree) :
    Except Failure Bytes → Prop where
  | plain (hplain : t.Free (plainPath path suffix) content) :
    Place path suffix content t (.ok (plainPath path suffix))
  | hashed (hplain : ¬ t.Free (plainPath path suffix) content)
      (hhashed : t.Free (hashedPath path suffix content) content) :
    Place path suffix content t (.ok (hashedPath path suffix content))
  | conflict (hplain : ¬ t.Free (plainPath path suffix) content)
      (hhashed : ¬ t.Free (hashedPath path suffix content) content) :
    Place path suffix content t (.error (.backupExists (hashedPath path suffix content)))

structure FileTree.HasText (t : FileTree) (path : Bytes) (old : Bytes) : Prop where
  read : t.read path = .ok old
  valid : Utf8.isValid old = true

structure Due (o : Options) (path : Bytes) (t : FileTree) (old : Bytes) : Prop extends
    t.HasText path old where
  changed : (renumberDocument o.offsets old).changed = true
  writes : o.writesFiles = true

/-- Why a file cannot be renumbered, and what is reported of it. -/
inductive Hindered (o : Options) (path : Bytes) (t : FileTree) : Except Trouble Report → Prop where
  | missing {e : DiskError} (hread : t.read path = .error e) (hkind : e.kind = .notFound) :
    Hindered o path t (.ok .notFound)
  | unreadable {e : DiskError} (hread : t.read path = .error e) (hkind : e.kind ≠ .notFound) :
    Hindered o path t (.error ⟨none, .fileRead path e⟩)
  | undecoded {old : Bytes} (hread : t.read path = .ok old) (hvalid : Utf8.isValid old = false) :
    Hindered o path t (.error ⟨none, .invalidUtf8 path⟩)
  | conflict {old : Bytes} {f : Failure} (hdue : Due o path t old) (hkeep : o.noBackup = false)
      (hplace : Backup.Place path o.backupSuffix old t (.error f)) :
    Hindered o path t (.error ⟨none, f⟩)
  | unwritable {old : Bytes} {backup : Bytes} {e : DiskError} (hdue : Due o path t old)
      (hkeep : o.noBackup = false) (hplace : Backup.Place path o.backupSuffix old t (.ok backup))
      (hkept : t.write backup old = .error e) :
    Hindered o path t (.error ⟨some s!"Failed to write backup for {path.toText}", .fileWrite backup e⟩)

/-- What is reported of the file `path`, and what becomes of the tree. -/
inductive FileResult (o : Options) (path : Bytes) (t : FileTree) :
    Except Trouble Report → FileTree → Prop where
  | hindered {r : Except Trouble Report} (h : Hindered o path t r) : FileResult o path t r t
  | unchanged {old : Bytes} (htext : t.HasText path old)
      (hsame : (renumberDocument o.offsets old).changed = false) :
    FileResult o path t (.ok .unchanged) t
  | wouldRenumber {old : Bytes} (htext : t.HasText path old)
      (hchanged : (renumberDocument o.offsets old).changed = true) (hwrites : o.writesFiles = false) :
    FileResult o path t (.ok .wouldRenumber) t
  | plain {old : Bytes} {t' : FileTree} (hdue : Due o path t old) (hkeep : o.noBackup = true)
      (hnew : t.write path (renumberDocument o.offsets old).text = .ok t') :
    FileResult o path t (.ok (.renumbered none)) t'
  | backed {old : Bytes} {backup : Bytes} {between t' : FileTree} (hdue : Due o path t old)
      (hkeep : o.noBackup = false) (hplace : Backup.Place path o.backupSuffix old t (.ok backup))
      (hkept : t.write backup old = .ok between)
      (hnew : between.write path (renumberDocument o.offsets old).text = .ok t') :
    FileResult o path t (.ok (.renumbered (some backup))) t'

/-! The backup. -/

namespace Backup
section
variable {verbosity : Nat} {path backup : Bytes} {suffix : String} {content : Bytes} {t t' : FileTree}

theorem ends_holds (path : Bytes) (content : Bytes) (t : FileTree) :
    ∃ b, Ends (holds path content) t b t ∧ (b = true ↔ t.read path = .ok content) := by
  cases h : t.read path with
  | error e =>
    refine ⟨false, (ends_read path t).bind ?_, by simp⟩
    rw [h]
    exact ends_pure false t
  | ok found =>
    refine ⟨found == content, (ends_read path t).bind ?_, by simp⟩
    rw [h]
    exact ends_pure _ t

theorem ends_isFree (path : Bytes) (content : Bytes) (t : FileTree) :
    ∃ b, Ends (isFree path content) t b t ∧ (b = true ↔ t.Free path content) := by
  cases h : t.isPresent path with
  | false =>
    refine ⟨true, (ends_isPresent path t).bind ?_, by simp [FileTree.Free, h]⟩
    rw [h]
    exact ends_pure true t
  | true =>
    obtain ⟨b, hb, hiff⟩ := ends_holds path content t
    refine ⟨b, (ends_isPresent path t).bind ?_, by simp [FileTree.Free, h, hiff]⟩
    rw [h]
    exact hb

theorem ends_isFree_of_free (h : t.Free path content) : Ends (isFree path content) t true t := by
  obtain ⟨b, hb, hiff⟩ := ends_isFree path content t
  rwa [hiff.mpr h] at hb

theorem ends_isFree_of_not_free (h : ¬ t.Free path content) :
    Ends (isFree path content) t false t := by
  obtain ⟨b, hb, hiff⟩ := ends_isFree path content t
  rwa [Bool.eq_false_iff.mpr (mt hiff.mp h)] at hb

theorem ends_choose (verbosity : Nat) {r : Except Failure Bytes}
    (h : Place path suffix content t r) : Ends (choose verbosity path suffix content) t r t := by
  cases h with
  | plain hplain => exact (ends_isFree_of_free hplain).bind (ends_pure _ t)
  | hashed hplain hhashed =>
    apply (ends_isFree_of_not_free hplain).bind
    apply (ends_isFree_of_free hhashed).bind
    exact (ends_tell _ _ t).bind (ends_pure _ t)
  | conflict hplain hhashed =>
    apply (ends_isFree_of_not_free hplain).bind
    exact (ends_isFree_of_not_free hhashed).bind (ends_pure _ t)

theorem exists_place (path : Bytes) (suffix : String) (content : Bytes) (t : FileTree) :
    ∃ r, Place path suffix content t r := by
  by_cases hplain : t.Free (plainPath path suffix) content
  · exact ⟨_, .plain hplain⟩
  · by_cases hhashed : t.Free (hashedPath path suffix content) content
    · exact ⟨_, .hashed hplain hhashed⟩
    · exact ⟨_, .conflict hplain hhashed⟩

theorem Place.free (h : Place path suffix content t (.ok backup)) : t.Free backup content := by
  cases h with
  | plain hplain => exact hplain
  | hashed _ hhashed => exact hhashed

theorem place_of_choose {s s' : Session} {r : Except Failure Bytes}
    (h : (choose verbosity path suffix content : InMemory _).run s = (r, s')) :
    Place path suffix content s.tree r := by
  obtain ⟨q, hq⟩ := exists_place path suffix content s.tree
  rwa [((ends_choose verbosity hq).eq h).1]

theorem ends_write_conflict {f : Failure} (hplace : Place path suffix content t (.error f)) :
    Ends (write verbosity path suffix content) t (.error ⟨none, f⟩) t :=
  (ends_choose verbosity hplace).bind (ends_pure _ t)

theorem ends_write_unwritable {e : DiskError} (hplace : Place path suffix content t (.ok backup))
    (h : t.write backup content = .error e) :
    Ends (write verbosity path suffix content) t
      (.error ⟨some s!"Failed to write backup for {path.toText}", .fileWrite backup e⟩) t :=
  (ends_choose verbosity hplace).bind ((ends_writeDocument_error h).bind (ends_pure _ t))

theorem ends_write_ok (hplace : Place path suffix content t (.ok backup))
    (h : t.write backup content = .ok t') :
    Ends (write verbosity path suffix content) t (.ok backup) t' :=
  (ends_choose verbosity hplace).bind
    ((ends_writeDocument_ok h).bind ((ends_tell _ _ t').bind (ends_pure _ t')))

end
end Backup

/-! The file. -/

section
variable {o : Options} {path : Bytes} {t t' : FileTree} {old new : Bytes}
  {r : Except Trouble Report}

theorem ends_overwrite {kept : Option Bytes} (h : t.write path new = .ok t') :
    Ends (overwrite o path new kept) t (.ok (.renumbered kept)) t' :=
  (ends_writeDocument_ok h).bind (ends_pure _ t')

theorem ends_replaceText_plain (hkeep : o.noBackup = true) (h : t.write path new = .ok t') :
    Ends (replaceText o path old new) t (.ok (.renumbered none)) t' := by
  rw [replaceText, if_pos hkeep]
  exact ends_overwrite h

theorem ends_replaceText_error {e : Trouble} (hkeep : o.noBackup = false)
    (h : Ends (Backup.write o.verbosity path o.backupSuffix old) t (.error e) t) :
    Ends (replaceText o path old new) t (.error e) t := by
  rw [replaceText, if_neg (by simp [hkeep])]
  exact h.bind (ends_pure _ t)

theorem ends_replaceText_backed {backup : Bytes} {between : FileTree} (hkeep : o.noBackup = false)
    (h : Ends (Backup.write o.verbosity path o.backupSuffix old) t (.ok backup) between)
    (hnew : between.write path new = .ok t') :
    Ends (replaceText o path old new) t (.ok (.renumbered (some backup))) t' := by
  rw [replaceText, if_neg (by simp [hkeep])]
  exact h.bind (ends_overwrite hnew)

theorem ends_renumberFile_error {e : DiskError} (h : t.read path = .error e) :
    Ends (renumberFile o path) t
      (if e.kind = .notFound then .ok .notFound else .error ⟨none, .fileRead path e⟩) t := by
  apply (ends_readDocument_error h).bind
  change Ends (if (e.kind == .notFound) = true then _ else _) t _ t
  by_cases hkind : e.kind = .notFound
  · rw [if_pos (by simp [hkind]), if_pos hkind]
    exact (ends_tell _ _ t).bind (ends_pure _ t)
  · rw [if_neg (by simp [hkind]), if_neg hkind]
    exact ends_pure _ t

theorem ends_renumberFile_undecoded (hread : t.read path = .ok old)
    (hvalid : Utf8.isValid old = false) :
    Ends (renumberFile o path) t (.error ⟨none, .invalidUtf8 path⟩) t := by
  apply (ends_readDocument_ok hread).bind
  rw [hvalid]
  exact ends_pure _ t

theorem ends_renumberFile_text (htext : t.HasText path old)
    (h : Ends (renumberText o path old) t r t') : Ends (renumberFile o path) t r t' := by
  apply (ends_readDocument_ok htext.read).bind
  rw [htext.valid]
  exact h

theorem ends_renumberText_unchanged (h : (renumberDocument o.offsets old).changed = false) :
    Ends (renumberText o path old) t (.ok .unchanged) t := by
  apply (ends_tellAll _ _ t).bind
  rw [if_neg (by simp [h])]
  exact ends_pure _ t

theorem ends_renumberText_wouldRenumber (h : (renumberDocument o.offsets old).changed = true)
    (hwrites : o.writesFiles = false) :
    Ends (renumberText o path old) t (.ok .wouldRenumber) t := by
  apply (ends_tellAll _ _ t).bind
  rw [if_pos h, if_neg (by simp [hwrites])]
  exact ends_pure _ t

theorem ends_renumberFile_due (hdue : Due o path t old)
    (h : Ends (replaceText o path old (renumberDocument o.offsets old).text) t r t') :
    Ends (renumberFile o path) t r t' := by
  apply ends_renumberFile_text hdue.toHasText
  apply (ends_tellAll _ _ t).bind
  rw [if_pos hdue.changed, if_pos hdue.writes]
  exact h

theorem ends_renumberFile_hindered (h : Hindered o path t r) : Ends (renumberFile o path) t r t := by
  cases h with
  | missing hread hkind =>
    have := ends_renumberFile_error (o := o) hread
    rwa [if_pos hkind] at this
  | unreadable hread hkind =>
    have := ends_renumberFile_error (o := o) hread
    rwa [if_neg hkind] at this
  | undecoded hread hvalid => exact ends_renumberFile_undecoded hread hvalid
  | conflict hdue hkeep hplace =>
    exact ends_renumberFile_due hdue (ends_replaceText_error hkeep (Backup.ends_write_conflict hplace))
  | unwritable hdue hkeep hplace hkept =>
    exact ends_renumberFile_due hdue
      (ends_replaceText_error hkeep (Backup.ends_write_unwritable hplace hkept))

theorem ends_renumberFile (h : FileResult o path t r t') : Ends (renumberFile o path) t r t' := by
  cases h with
  | hindered h => exact ends_renumberFile_hindered h
  | unchanged htext hsame =>
    exact ends_renumberFile_text htext (ends_renumberText_unchanged hsame)
  | wouldRenumber htext hchanged hwrites =>
    exact ends_renumberFile_text htext (ends_renumberText_wouldRenumber hchanged hwrites)
  | plain hdue hkeep hnew => exact ends_renumberFile_due hdue (ends_replaceText_plain hkeep hnew)
  | backed hdue hkeep hplace hkept hnew =>
    exact ends_renumberFile_due hdue
      (ends_replaceText_backed hkeep (Backup.ends_write_ok hplace hkept) hnew)

theorem exists_fileResult_due (hdue : Due o path t old) : ∃ r t', FileResult o path t r t' := by
  obtain ⟨l, hl, -⟩ := FileTree.read_eq_ok_iff.mp hdue.read
  have hnew : ∀ {tree : FileTree}, tree.target path = .ok l → ∃ t',
      tree.write path (renumberDocument o.offsets old).text = .ok t' := fun h =>
    ⟨_, FileTree.write_eq_ok_iff.mpr ⟨l, h, rfl⟩⟩
  cases hkeep : o.noBackup with
  | true =>
    obtain ⟨t', ht'⟩ := hnew hl
    exact ⟨_, _, .plain hdue hkeep ht'⟩
  | false =>
    obtain ⟨q, hplace⟩ := Backup.exists_place path o.backupSuffix old t
    cases q with
    | error f => exact ⟨_, _, .hindered (.conflict hdue hkeep hplace)⟩
    | ok backup =>
      cases hkept : t.write backup old with
      | error e => exact ⟨_, _, .hindered (.unwritable hdue hkeep hplace hkept)⟩
      | ok between =>
        obtain ⟨t', ht'⟩ := hnew (FileTree.target_write hkept hl)
        exact ⟨_, _, .backed hdue hkeep hplace hkept ht'⟩

theorem exists_fileResult (o : Options) (path : Bytes) (t : FileTree) :
    ∃ r t', FileResult o path t r t' := by
  cases hread : t.read path with
  | error e =>
    by_cases hkind : e.kind = .notFound
    · exact ⟨_, _, .hindered (.missing hread hkind)⟩
    · exact ⟨_, _, .hindered (.unreadable hread hkind)⟩
  | ok old =>
    cases hvalid : Utf8.isValid old with
    | false => exact ⟨_, _, .hindered (.undecoded hread hvalid)⟩
    | true =>
      cases hchanged : (renumberDocument o.offsets old).changed with
      | false => exact ⟨_, _, .unchanged ⟨hread, hvalid⟩ hchanged⟩
      | true =>
        cases hwrites : o.writesFiles with
        | false => exact ⟨_, _, .wouldRenumber ⟨hread, hvalid⟩ hchanged hwrites⟩
        | true => exact exists_fileResult_due ⟨⟨hread, hvalid⟩, hchanged, hwrites⟩

end
end FieldTags
