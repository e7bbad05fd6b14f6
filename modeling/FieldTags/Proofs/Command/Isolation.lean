import FieldTags.Proofs.Command.Steps
import Mathlib.Control.Monad.Basic

/-! Failures in a run. A file that fails leaves the tree as it was, so the files behind it fare as if it
had not been among the inputs. -/
namespace FieldTags

section
variable {o : Options} {path : Bytes} {t t' : FileTree} {r : Except Trouble Report}

theorem FileResult.hindered_of_isFailure (h : FileResult o path t r t')
    (hr : FieldTags.isFailure r = true) : Hindered o path t r ∧ t' = t := by
  cases h with
  | hindered h => exact ⟨h, rfl⟩
  | unchanged | wouldRenumber | plain | backed => exact absurd hr Bool.false_ne_true

theorem processed_of_isFailure (h : isFailure (t.result o path) = true) : t.processed o path = t :=
  ((fileResult_processed o t path).hindered_of_isFailure h).2

end

def standing (entries : List LedgerEntry) : List LedgerEntry := entries.filter (! isFailure ·.2)

section
variable {o : Options} {t : FileTree} {path : Bytes}

theorem standing_of_failed (h : isFailure (t.result o path) = true) (paths : List Bytes) :
    standing (t.ledger o (path :: paths)) = standing (t.ledger o paths) := by
  rw [FileTree.ledger, standing, List.filter_cons_of_neg (by simp [h]), processed_of_isFailure h]
  rfl

theorem standing_of_stands (h : isFailure (t.result o path) = false) (paths : List Bytes) :
    standing (t.ledger o (path :: paths)) =
      (path, t.result o path) :: standing ((t.processed o path).ledger o paths) := by
  rw [FileTree.ledger, standing, List.filter_cons_of_pos (by simp [h])]
  rfl

end

theorem ledger_standing (o : Options) (t : FileTree) (paths : List Bytes) :
    t.ledger o ((standing (t.ledger o paths)).map Prod.fst) = standing (t.ledger o paths) := by
  induction paths generalizing t with
  | nil => rfl
  | cons path paths ih =>
    cases hfail : isFailure (t.result o path) with
    | true => rw [standing_of_failed hfail, ih]
    | false => rw [standing_of_stands hfail, List.map_cons, FileTree.ledger, ih]

theorem foldl_processed_standing (o : Options) (t : FileTree) (paths : List Bytes) :
    ((standing (t.ledger o paths)).map Prod.fst).foldl (FileTree.processed o) t =
      paths.foldl (FileTree.processed o) t := by
  induction paths generalizing t with
  | nil => rfl
  | cons path paths ih =>
    rw [List.foldl_cons]
    cases hfail : isFailure (t.result o path) with
    | true => rw [standing_of_failed hfail, ih, processed_of_isFailure hfail]
    | false => rw [standing_of_stands hfail, List.map_cons, List.foldl_cons, ih]

theorem Tally.exit_of_failed {counts : Tally} (h : 0 < counts.failed) (check : Bool) :
    counts.exit check =
      ⟨1, some s!"Error: {counts.failed} of {counts.processed} file(s) failed"⟩ := by
  rw [exit, complaint?, if_pos h]
  rfl

/-- Processing a file changes the tree only if the file is reported as renumbered. A file fails for one
of the reasons that there are, and then it is reported as that, and all files stay as they were. So the
failing files may be left out of any list: the tree at the end and the report on the others are the same.
A run in which files fail ends with the exit code 1, and with their number and that of all its files.

In these trees a file that was read can also be written, so there is no failure after the backup. -/
theorem command_isolates_failures (suffix : Option String) (args : List String) (s : Session) :
    (∀ (o : Options) (path : Bytes) (s : Session),
      let final := (renumberFile o path : InMemory _).run s
      (final.2.tree ≠ s.tree → ∃ kept, final.1 = .ok (.renumbered kept)) ∧
      (∀ r, Hindered o path s.tree r →
        final.1 = r ∧ isFailure r = true ∧ final.2.tree = s.tree) ∧
      (isFailure final.1 = true → Hindered o path s.tree final.1)) ∧
    (∀ (o : Options) (files : List Bytes) (s : Session),
      let entries := s.tree.ledger o files
      let all := (renumberFiles o .zero files : InMemory _).run s
      let others := (renumberFiles o .zero ((standing entries).map Prod.fst) : InMemory _).run s
      entries.map Prod.fst = files ∧ all.2.reports = s.reports ++ entries.map LedgerEntry.line ∧
      others.2.tree = all.2.tree ∧
      others.2.reports = s.reports ++ (standing entries).map LedgerEntry.line) ∧
    ∀ o, Options.read suffix args = .ok o →
      let failed := (s.tree.ledger o (s.tree.inputs o)).countP (isFailure ·.2)
      0 < failed → ((command suffix args : InMemory _).run s).1 =
        ⟨1, some s!"Error: {failed} of {(s.tree.inputs o).length} file(s) failed"⟩ := by
  refine ⟨?_, ?_, ?_⟩
  · intro o path s final
    have hresult := fileResult_processed o s.tree path
    obtain ⟨s', hrun, htree, -⟩ := (ends_renumberFile hresult).run
    have hfinal : final = (s.tree.result o path, s') := hrun
    rw [hfinal, htree]
    refine ⟨hresult.step.renumbered_of_ne, ?_, fun h => (hresult.hindered_of_isFailure h).1⟩
    intro r hr
    obtain ⟨hsame, hstays⟩ := result_and_processed (.hindered hr)
    exact ⟨hsame, hr.isFailure, hstays⟩
  · intro o files s entries all others
    refine ⟨map_fst_ledger o s.tree files, reports_renumberFiles o .zero files s, ?_, ?_⟩
    · rw [tree_renumberFiles, tree_renumberFiles, foldl_processed_standing]
    · rw [reports_renumberFiles, ledger_standing]
  · intro o ho failed hfailed
    rw [exit_command suffix args s ho, Tally.exit_of_failed hfailed]
    have hlength := congrArg List.length (map_fst_ledger o s.tree (s.tree.inputs o))
    rw [List.length_map] at hlength
    rw [← hlength]
    rfl

/-- The first file is no text and stays as it is. The second one is renumbered all the same, and the
run fails. -/
theorem command_isolates_failures_undecoded :
    let bad := Ascii.word "bad.proto"
    let good := Ascii.word "a.proto"
    let o : Options := ⟨[bad, good], 0, false, false, false, ".bak", false, none⟩
    let s : Session := ⟨((FileTree.atFolder []).addFile [bad] [0xff]).addFile [good]
      (Ascii.word "message M { int32 a = 5; }"), []⟩
    let first := (renumberFile o bad : InMemory _).run s
    let final := (command none ["bad.proto", "a.proto"] : InMemory _).run s
    (first.1 = .error ⟨none, .invalidUtf8 bad⟩ ∧ first.2.tree = s.tree) ∧
      final.1 = ⟨1, some "Error: 1 of 2 file(s) failed"⟩ ∧
      final.2.tree.read good = .ok (Ascii.word "message M { int32 a = 1; }") := by
  intro bad good o s first final
  have hread : Options.read none ["bad.proto", "a.proto"] = .ok o := by decide +kernel
  have hbad : Hindered o bad s.tree (.error ⟨none, .invalidUtf8 bad⟩) := by
    have hbytes : s.tree.read bad = .ok [0xff] := by decide +kernel
    exact .undecoded hbytes (by decide +kernel)
  have hafter : final.2.tree.read good = .ok (Ascii.word "message M { int32 a = 1; }") := by
    decide +kernel
  have hall := command_isolates_failures none ["bad.proto", "a.proto"] s
  have hfirst := (hall.1 o bad s).2.1 _ hbad
  have hexit := hall.2.2 o hread (by decide +kernel)
  refine ⟨⟨hfirst.1, hfirst.2.2⟩, hexit.trans ?_, hafter⟩
  decide +kernel

end FieldTags
