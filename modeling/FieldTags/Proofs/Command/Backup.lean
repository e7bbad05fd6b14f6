import FieldTags.Proofs.Command.Steps
import FieldTags.Proofs.Text.Encoding
import Mathlib.Control.Monad.Basic

/-! The backup of a file that was renumbered. It is written before the file, so it keeps the old text
unless its path leads to the file itself. -/
namespace FieldTags
open InMemory

section
variable {verbosity : Nat} {path backup : Bytes} {suffix : String} {t : Bytes} {s s' : Session}

namespace Backup

theorem eq_of_choose_empty (hread : s.tree.read path = .ok t)
    (h : (choose verbosity path "" t : InMemory _).run s = (.ok backup, s')) : backup = path := by
  have hplain : plainPath path "" = path := List.append_nil path
  have hfree : s.tree.Free (plainPath path "") t := by
    rw [hplain]
    exact .inr hread
  cases place_of_choose h with
  | plain => exact hplain
  | hashed hnot => exact absurd hfree hnot

theorem eq_of_choose
    (h : (choose verbosity path suffix t : InMemory _).run s = (.ok backup, s')) :
    backup = plainPath path suffix ∨ backup = hashedPath path suffix t := by
  cases place_of_choose h with
  | plain => exact .inl rfl
  | hashed => exact .inr rfl

theorem free_of_choose (h : (choose verbosity path suffix t : InMemory _).run s = (.ok backup, s')) :
    s.tree.Free backup t :=
  (place_of_choose h).free

end Backup

/-- Behind a report of a backup stand two writes: the old text goes to the backup, and then the new
text over the file. -/
theorem writes_of_renumberFile {o : Options}
    (h : (renumberFile o path : InMemory _).run s = (.ok (.renumbered (some backup)), s')) :
    ∃ t s₁ s₂ between, s.tree.read path = .ok t ∧ s₁.tree = s.tree ∧
      (Backup.choose o.verbosity path o.backupSuffix t : InMemory _).run s₁ = (.ok backup, s₂) ∧
      s.tree.write backup t = .ok between ∧
      between.write path (renumberDocument o.offsets t).text = .ok s'.tree := by
  have hstep := renumberFile_step h
  generalize s'.tree = after at hstep ⊢
  cases hstep with
  | stays hr => exact absurd rfl (hr _)
  | backed _ _ hread _ hchoose hkept hnew =>
    obtain ⟨s₂, hrun⟩ := exists_run_of_onTree hchoose
    exact ⟨_, ⟨s.tree, []⟩, s₂, _, hread, rfl, hrun, hkept, hnew⟩

theorem Blake3.toUInt8_ne_slash {t : Bytes} {c : Char} (h : c ∈ Blake3.hex t) :
    c.toUInt8 ≠ Ascii.slash := by
  have hdigit : ∀ n < 16, (Nat.digitChar n).toUInt8 ≠ Ascii.slash := by decide
  obtain ⟨b, -, hb⟩ := List.mem_flatMap.mp h
  have hlt := b.toNat_lt
  simp only [hexByte, List.mem_cons, List.not_mem_nil, or_false] at hb
  rcases hb with rfl | rfl
  · exact hdigit (b.toNat / 16) (by omega)
  · exact hdigit (b.toNat % 16) (by omega)

namespace Backup

theorem slash_notMem_suffix (h : '/' ∉ suffix.toList) : Ascii.slash ∉ Bytes.ofString suffix :=
  Bytes.notMem_ofString (by decide) h

theorem exists_hashedPath_eq (path t : Bytes) (hslash : '/' ∉ suffix.toList) :
    ∃ added, hashedPath path suffix t = path ++ added ∧ added ≠ [] ∧ Ascii.slash ∉ added := by
  refine ⟨_, rfl, List.cons_ne_nil _ _, ?_⟩
  rw [List.mem_cons, List.mem_append, not_or, not_or]
  refine ⟨by decide, fun h => ?_, slash_notMem_suffix hslash⟩
  obtain ⟨c, hc, hbyte⟩ := List.mem_map.mp h
  exact Blake3.toUInt8_ne_slash (List.mem_of_mem_take hc) hbyte

/-- With nothing but characters of a name added, only the empty suffix leads back to the file. -/
theorem target_eq_iff_of_choose (hslash : '/' ∉ suffix.toList) (hread : s.tree.read path = .ok t)
    (h : (choose verbosity path suffix t : InMemory _).run s = (.ok backup, s')) :
    s.tree.target backup = s.tree.target path ↔ suffix = "" := by
  obtain ⟨l, hl, -⟩ := FileTree.read_eq_ok_iff.mp hread
  constructor
  · intro hsame
    rw [hl] at hsame
    refine Decidable.byContradiction fun hne => ?_
    rcases eq_of_choose h with rfl | rfl
    · exact FileTree.target_append_ne (Bytes.ofString_ne_nil hne) (slash_notMem_suffix hslash) hl hsame
    · obtain ⟨added, heq, hadded, hplain⟩ := exists_hashedPath_eq path t hslash
      rw [heq] at hsame
      exact FileTree.target_append_ne hadded hplain hl hsame
  · rintro rfl
    rw [eq_of_choose_empty hread h]

end Backup

/-- A report of a backup is right about the file itself; the backup holds the old text exactly if its
path does not lead to the file, or the text stayed as it was. As long as the suffix has no slash, the
path leads to the file only if the suffix is empty. -/
theorem renumberFile_backup {o : Options}
    (h : ((renumberFile o path : InMemory _).run s).1 = .ok (.renumbered (some backup))) :
    let after := ((renumberFile o path : InMemory _).run s).2.tree
    ∃ t, s.tree.read path = .ok t ∧
      after.read path = .ok (renumberDocument o.offsets t).text ∧
      (after.read backup = .ok t ↔
        s.tree.target backup ≠ s.tree.target path ∨ (renumberDocument o.offsets t).text = t) ∧
      ('/' ∉ o.backupSuffix.toList →
        (s.tree.target backup = s.tree.target path ↔ o.backupSuffix = "")) := by
  obtain ⟨r, s', hrun⟩ : ∃ r s', (renumberFile o path : InMemory _).run s = (r, s') := ⟨_, _, rfl⟩
  rw [hrun] at h ⊢
  obtain rfl : r = .ok (.renumbered (some backup)) := h
  obtain ⟨t, s₁, s₂, between, hread, htree, hchoose, hkept, hnew⟩ := writes_of_renumberFile hrun
  obtain ⟨hpath, hbackup⟩ := FileTree.read_copy_overwrite hread hkept hnew
  refine ⟨t, hread, hpath, hbackup, fun hslash => ?_⟩
  rw [← htree] at hread ⊢
  exact Backup.target_eq_iff_of_choose hslash hread hchoose

end

theorem renumberFile_backup_beside :
    let file := Ascii.word "a.proto"
    let beside := Ascii.word "a.proto.bak"
    let o : Options := ⟨[file], 0, false, false, false, ".bak", false, none⟩
    let old := Ascii.word "message M { int32 a = 5; }"
    let s : Session := ⟨(FileTree.atFolder []).addFile [file] old, []⟩
    ((renumberFile o file : InMemory _).run s).1 = .ok (.renumbered (some beside)) ∧
      ((renumberFile o file : InMemory _).run s).2.tree.read beside = .ok old := by
  intro file beside o old s
  have hreport : ((renumberFile o file : InMemory _).run s).1 =
      .ok (.renumbered (some beside)) := by decide +kernel
  have hold : s.tree.read file = .ok old := by decide +kernel
  obtain ⟨t, hread, -, hkept, hsuffix⟩ := renumberFile_backup hreport
  obtain rfl : old = t := Except.ok.inj (hold.symm.trans hread)
  have hapart : s.tree.target beside ≠ s.tree.target file := fun hsame =>
    absurd ((hsuffix (by decide)).mp hsame) (by decide)
  exact ⟨hreport, hkept.mpr (.inl hapart)⟩

/-- With the empty suffix the file is its own backup, and its old text is lost. -/
theorem old_text_lost_of_empty_suffix :
    let file := Ascii.word "a.proto"
    let o : Options := ⟨[file], 0, false, false, false, "", false, none⟩
    let s : Session :=
      ⟨(FileTree.atFolder []).addFile [file] (Ascii.word "message M { int32 a = 5; }"), []⟩
    let final := (renumberFile o file : InMemory _).run s
    s.tree.read file = .ok (Ascii.word "message M { int32 a = 5; }") ∧
      final.1 = .ok (.renumbered (some file)) ∧
      final.2.tree.read file = .ok (Ascii.word "message M { int32 a = 1; }") := by
  refine ⟨?_, ?_, ?_⟩ <;> decide +kernel

end FieldTags
