import FieldTags.Proofs.Command.Backup

/-! Files that are no inputs. A run writes to its inputs and to backups, and a backup goes where nothing
is, or over the same text. No write opens a way to a file, so a path that becomes an input on the way
leads to a file that the run has made. -/
namespace FieldTags

namespace FileStep
variable {o : Options} {path : Bytes} {t t' : FileTree} {r : Except Trouble Report}
  {l : FileTree.Location}

theorem target_iff (h : FileStep o path t r t') (other : Bytes) :
    t'.target other = .ok l ↔ t.target other = .ok l := by
  cases h with
  | stays hr => rfl
  | plain _ _ _ _ hnew => exact FileTree.target_write_iff hnew
  | backed _ _ _ _ _ hkept hnew =>
    rw [FileTree.target_write_iff hnew, FileTree.target_write_iff hkept]

theorem entry?_of_ne {c : Bytes} (h : FileStep o path t r t') (hpath : t.target path ≠ .ok l)
    (hc : t.entry? l = some (.file c)) : t'.entry? l = some (.file c) := by
  cases h with
  | stays hr => exact hc
  | plain _ _ _ _ hnew => exact FileTree.entry?_write_of_ne hnew hpath hc
  | @backed old backup between _ _ _ _ _ hchoose hkept hnew =>
    have hkeeps : between.entry? l = some (.file c) := by
      by_cases hbackup : t.target backup = .ok l
      · obtain ⟨s, hrun⟩ := InMemory.exists_run_of_onTree hchoose
        rw [(Backup.free_of_choose hrun).content_eq hbackup hc]
        exact FileTree.entry?_write_self hkept hbackup
      · exact FileTree.entry?_write_of_ne hkept hbackup hc
    have hother : between.target path ≠ .ok l := by rwa [Ne, FileTree.target_write_iff hkept]
    exact FileTree.entry?_write_of_ne hnew hother hkeeps

theorem entry?_new {e : Entry Bytes} (h : FileStep o path t r t') (hnone : t.entry? l = none)
    (he : t'.entry? l = some e) : ∃ c, e = .file c ∧ t.read path = .ok c := by
  cases h with
  | stays hr =>
    rw [hnone] at he
    exact absurd he nofun
  | plain _ _ hread _ hnew =>
    obtain ⟨hpath, -⟩ := FileTree.entry?_write_new hnew hnone he
    exact absurd hpath (FileTree.target_ne_of_read hread hnone)
  | @backed old backup between _ _ _ hread _ hchoose hkept hnew =>
    have hother : between.target path ≠ .ok l := by
      rw [Ne, FileTree.target_write_iff hkept]
      exact FileTree.target_ne_of_read hread hnone
    refine ⟨old, ?_, hread⟩
    cases hbetween : between.entry? l with
    | none => exact absurd (FileTree.entry?_write_new hnew hbetween he).1 hother
    | some new =>
      obtain ⟨-, rfl⟩ := FileTree.entry?_write_new hkept hnone hbetween
      rw [FileTree.entry?_write_of_ne hnew hother hbetween] at he
      exact (Option.some.inj he).symm

end FileStep

/-- The tree after a run has every file as it was that no input leads to. The run goes through the
inputs in turn, and what a step finds absent and leaves present is a file with the text that the input
of the step had before it. A command line that cannot be read changes nothing. -/
theorem command_spares (suffix : Option String) (args : List String) (s : Session) :
    let after := ((command suffix args : InMemory _).run s).2.tree
    (∀ stop, Options.read suffix args = .error stop → after = s.tree) ∧
    ∀ o, Options.read suffix args = .ok o →
      (∀ l c, s.tree.entry? l = some (.file c) →
        (∀ path ∈ s.tree.inputs o, s.tree.locate path ≠ .ok l) → after.entry? l = some (.file c)) ∧
      after = (s.tree.inputs o).foldl (FileTree.processed o) s.tree ∧
      ∀ done path rest, s.tree.inputs o = done ++ path :: rest →
        let before := done.foldl (FileTree.processed o) s.tree
        ∀ l e, before.entry? l = none → FileTree.entry? (before.processed o path) l = some e →
          ∃ c, e = .file c ∧ before.read path = .ok c := by
  intro after
  refine ⟨fun stop hstop => tree_command_of_stop suffix args s hstop, fun o ho => ⟨?_, ?_, ?_⟩⟩
  · intro l c hc hinputs
    -- through the whole run the file stays, and no other path comes to lead to it
    suffices hkept : after.entry? l = some (.file c) ∧
        ∀ path, after.target path = .ok l ↔ s.tree.target path = .ok l from hkept.1
    refine command_invariant suffix args s
      (P := fun t => t.entry? l = some (.file c) ∧
        ∀ path, t.target path = .ok l ↔ s.tree.target path = .ok l) ⟨hc, fun _ => Iff.rfl⟩ ?_
    intro o' ho' t ⟨ht, htargets⟩ path hpath
    obtain rfl : o = o' := Except.ok.inj (ho.symm.trans ho')
    have hstep := fileStep_processed o t path
    refine ⟨hstep.entry?_of_ne ?_ ht, fun other => (hstep.target_iff other).trans (htargets other)⟩
    intro hl
    have hthere : (s.tree.entry? l).isSome = true := by
      rw [hc]
      rfl
    exact hinputs path hpath (FileTree.locate_of_target ((htargets path).mp hl) hthere)
  · exact tree_command suffix args s ho
  · intro done path rest _ before l e hnone he
    exact (fileStep_processed o before path).entry?_new hnone he

/-- The plain backup path holds another text here, so the backup goes to the other path. -/
theorem command_spares_conflict :
    let file := Ascii.word "a.proto"
    let beside := Ascii.word "a.proto.bak"
    let other := Ascii.word "kept"
    let s : Session := ⟨((FileTree.atFolder []).addFile [file]
      (Ascii.word "message M { int32 a = 5; }")).addFile [beside] other, []⟩
    FileTree.entry? ((command none ["a.proto"] : InMemory _).run s).2.tree [beside] =
      some (.file other) := by
  intro file beside other s
  let o : Options := ⟨[file], 0, false, false, false, ".bak", false, none⟩
  have hread : Options.read none ["a.proto"] = .ok o := by decide +kernel
  have hother : s.tree.entry? [beside] = some (.file other) :=
    FileTree.entry?_eq_file_iff.mpr (by decide +kernel)
  have hinputs : ∀ path ∈ s.tree.inputs o, s.tree.locate path ≠ .ok [beside] := by decide +kernel
  exact ((command_spares none ["a.proto"] s).2 _ hread).1 _ _ hother hinputs

end FieldTags
