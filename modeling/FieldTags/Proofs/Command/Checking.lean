import FieldTags.Proofs.Command.Steps
import FieldTags.Proofs.Command.Switches
import FieldTags.Proofs.Document.Offsets
import Mathlib.Control.Monad.Basic

/-! Runs that do not write. They leave the tree, and what they report does not depend on the options. A
file is reported as unchanged by such a run exactly if a run that writes would report it so. -/
namespace FieldTags

section
variable {o other : Options} {path : Bytes} {paths : List Bytes} {t t' : FileTree}
  {r : Except Trouble Report}

theorem FileResult.of_not_writes (h : FileResult o path t r t') (ho : o.writesFiles = false)
    (hother : other.writesFiles = false) : t' = t ∧ FileResult other path t r t := by
  cases h with
  | hindered h =>
    refine ⟨rfl, .hindered ?_⟩
    cases h with
    | missing hread hkind => exact .missing hread hkind
    | unreadable hread hkind => exact .unreadable hread hkind
    | undecoded hread hvalid => exact .undecoded hread hvalid
    | conflict hdue => exact absurd hdue.writes (by simp [ho])
    | unwritable hdue => exact absurd hdue.writes (by simp [ho])
  | unchanged htext hsame =>
    rw [renumberDocument_changed o.offsets other.offsets] at hsame
    exact ⟨rfl, .unchanged htext hsame⟩
  | wouldRenumber htext hchanged =>
    rw [renumberDocument_changed o.offsets other.offsets] at hchanged
    exact ⟨rfl, .wouldRenumber htext hchanged hother⟩
  | plain hdue => exact absurd hdue.writes (by simp [ho])
  | backed hdue => exact absurd hdue.writes (by simp [ho])

theorem processed_of_not_writes (h : o.writesFiles = false) : t.processed o path = t :=
  ((fileResult_processed o t path).of_not_writes h h).1

theorem result_of_not_writes (ho : o.writesFiles = false) (hother : other.writesFiles = false) :
    t.result o path = t.result other path :=
  (result_and_processed ((fileResult_processed o t path).of_not_writes ho hother).2).1.symm

theorem result_eq_unchanged_iff :
    t.result o path = .ok .unchanged ↔
      ∃ old, t.HasText path old ∧ (renumberDocument .tracked old).changed = false := by
  constructor
  · intro h
    have hresult := fileResult_processed o t path
    rw [h] at hresult
    generalize t.processed o path = after at hresult
    cases hresult with
    | hindered h => exact absurd h.isFailure nofun
    | unchanged htext hsame =>
      rw [renumberDocument_changed o.offsets .tracked] at hsame
      exact ⟨_, htext, hsame⟩
  · rintro ⟨old, htext, hsame⟩
    rw [renumberDocument_changed .tracked o.offsets] at hsame
    exact (result_and_processed (.unchanged htext hsame)).1

theorem processed_of_unchanged (h : t.result o path = .ok .unchanged) : t.processed o path = t := by
  by_contra hne
  obtain ⟨kept, hkept⟩ := (fileStep_processed o t path).renumbered_of_ne hne
  rw [h] at hkept
  exact absurd hkept nofun

theorem foldl_processed_of_stays (h : ∀ path ∈ paths, t.processed o path = t) :
    paths.foldl (FileTree.processed o) t = t := by
  induction paths with
  | nil => rfl
  | cons path paths ih =>
    obtain ⟨hfirst, hlater⟩ := List.forall_mem_cons.mp h
    rw [List.foldl_cons, hfirst]
    exact ih hlater

theorem ledger_of_not_writes (ho : o.writesFiles = false) (hother : other.writesFiles = false)
    (paths : List Bytes) : t.ledger o paths = t.ledger other paths := by
  induction paths with
  | nil => rfl
  | cons path paths ih =>
    rw [FileTree.ledger, FileTree.ledger, result_of_not_writes ho hother, processed_of_not_writes ho,
      processed_of_not_writes hother, ih]

theorem ledger_unchanged_iff :
    (∀ e ∈ t.ledger o paths, e.2 = .ok .unchanged) ↔
      ∀ path ∈ paths, t.result o path = .ok .unchanged := by
  induction paths with
  | nil => simp [FileTree.ledger]
  | cons path paths ih =>
    rw [FileTree.ledger, List.forall_mem_cons, List.forall_mem_cons]
    refine and_congr_right fun hfirst => ?_
    rw [processed_of_unchanged hfirst]
    exact ih

theorem eq_unchanged_iff : r = .ok .unchanged ↔ isFailure r = false ∧ isChange r = false := by
  cases r with
  | error e => simp [isFailure]
  | ok report => cases report <;> simp [isFailure, isChange, Report.isChange]

theorem Report.describe_eq_iff (r : Report) : r.describe = "no changes" ↔ r = .unchanged := by
  cases r with
  | unchanged => exact iff_of_true rfl rfl
  | wouldRenumber | notFound => exact iff_of_false (by decide) nofun
  | renumbered backup =>
    refine iff_of_false ?_ nofun
    cases backup with
    | none => decide
    | some backup =>
      intro h
      have hfirst : ("renumbered, backup at " ++ backup.toText).toList.head? = _ :=
        congrArg (·.toList.head?) h
      simp at hfirst

theorem LedgerEntry.line_eq_iff (e : LedgerEntry) :
    e.line = s!"{e.1.toText}: no changes" ↔ e.2 = .ok .unchanged := by
  obtain ⟨path, r⟩ := e
  have hsame : s!"{path.toText}: no changes" = path.toText ++ (": " ++ "no changes") := rfl
  rw [hsame]
  cases r with
  | error trouble =>
    refine iff_of_false (fun h => ?_) nofun
    change path.toText ++ ": error: " ++ trouble.describe = _ at h
    rw [String.append_assoc, String.append_right_inj] at h
    have hthird := congrArg (·.toList[2]?) h
    simp at hthird
  | ok r =>
    change path.toText ++ ": " ++ r.describe = _ ↔ _
    rw [String.append_assoc, String.append_right_inj, String.append_right_inj, r.describe_eq_iff,
      Except.ok.injEq]

theorem tally_eq_zero_iff (entries : List LedgerEntry) :
    (tally entries).failed = 0 ∧ (tally entries).changed = 0 ↔
      ∀ e ∈ entries, e.2 = .ok .unchanged := by
  rw [tally]
  simp only [eq_unchanged_iff, List.countP_eq_zero, Bool.not_eq_true, forall_and]

theorem map_line_ledger_iff :
    (t.ledger o paths).map LedgerEntry.line = paths.map (fun path => s!"{path.toText}: no changes") ↔
      ∀ path ∈ paths, t.result o path = .ok .unchanged := by
  have hpaths := congrArg (List.map fun path => s!"{path.toText}: no changes") (map_fst_ledger o t paths)
  rw [List.map_map] at hpaths
  rw [← hpaths, List.map_inj_left, ← ledger_unchanged_iff]
  exact forall₂_congr fun e _ => e.line_eq_iff

end

section
variable (suffix : Option String) (args : List String) (s : Session) {o : Options}

theorem tree_command_of_not_writes (h : Options.read suffix args = .ok o)
    (hwrites : o.writesFiles = false) :
    ((command suffix args : InMemory _).run s).2.tree = s.tree := by
  rw [tree_command suffix args s h]
  exact foldl_processed_of_stays fun _ _ => processed_of_not_writes hwrites

theorem code_command_check_iff (h : Options.read suffix args = .ok o) (hcheck : o.check = true) :
    ((command suffix args : InMemory _).run s).1.code = 0 ↔
      ∀ path ∈ s.tree.inputs o, s.tree.result o path = .ok .unchanged := by
  rw [exit_command suffix args s h, Tally.exit_code_eq_zero_iff, ← ledger_unchanged_iff,
    ← tally_eq_zero_iff]
  simp [hcheck]

theorem command_unchanged_iff (h : Options.read suffix args = .ok o) :
    (((command suffix args : InMemory _).run s).1.code = 0 ∧
      ((command suffix args : InMemory _).run s).2.reports =
        s.reports ++ (s.tree.inputs o).map (fun path => s!"{path.toText}: no changes") ∧
      ((command suffix args : InMemory _).run s).2.tree = s.tree) ↔
      ∀ path ∈ s.tree.inputs o, s.tree.result o path = .ok .unchanged := by
  rw [exit_command suffix args s h, reports_command suffix args s h, tree_command suffix args s h,
    List.append_cancel_left_eq, map_line_ledger_iff]
  constructor
  · exact fun hrun => hrun.2.1
  · intro hall
    refine ⟨?_, hall, foldl_processed_of_stays fun path hpath => ?_⟩
    · have hcounts := (tally_eq_zero_iff _).mpr (ledger_unchanged_iff.mpr hall)
      exact Tally.exit_code_eq_zero_iff.mpr ⟨hcounts.1, fun _ => hcounts.2⟩
    · exact processed_of_unchanged (hall path hpath)

/-- A run with the switch for a check or the one for a dry run leaves the tree. A check succeeds exactly
if the same command without the two switches succeeds, reports that every file has no changes, and leaves
the tree. Without the switch for fixed offsets a check ends in the same way with the same reports.

This is about the command lines that are accepted. One that is not, such as one that repeats a switch,
starts no run. -/
theorem command_check_predicts (h : Options.read suffix args = .ok o) :
    let final := (command suffix args : InMemory _).run s
    (o.check = true ∨ o.dryRun = true → final.2.tree = s.tree) ∧
    (o.check = true →
      let plainArgs := withoutSwitches [.dryRun, .check] args
      let plain := (command suffix plainArgs : InMemory _).run s
      Options.read suffix plainArgs = .ok { o with dryRun := false, check := false } ∧
      (final.1.code = 0 ↔
        plain.1.code = 0 ∧
        plain.2.reports = s.reports ++ (s.tree.inputs o).map (fun path => s!"{path.toText}: no changes") ∧
        plain.2.tree = s.tree)) ∧
    (o.check = true →
      let trackedArgs := withoutSwitches [.fixedOffsets] args
      let tracked := (command suffix trackedArgs : InMemory _).run s
      Options.read suffix trackedArgs = .ok { o with fixedOffsets := false } ∧
      tracked.1 = final.1 ∧ tracked.2.reports = final.2.reports) := by
  intro final
  refine ⟨?_, ?_, ?_⟩
  · intro hswitch
    have hwrites : o.writesFiles = false := by
      cases hswitch with
      | inl hcheck => simp [Options.writesFiles, hcheck]
      | inr hdry => simp [Options.writesFiles, hdry]
    exact tree_command_of_not_writes suffix args s h hwrites
  · intro hcheck plainArgs plain
    have hplain : Options.read suffix plainArgs = .ok { o with dryRun := false, check := false } := by
      rw [Options.read_without _ h]
      simp [Options.without]
    refine ⟨hplain, ?_⟩
    have hinputs : s.tree.inputs { o with dryRun := false, check := false } = s.tree.inputs o := rfl
    have hrun := command_unchanged_iff suffix plainArgs s hplain
    rw [hinputs] at hrun
    rw [hrun, code_command_check_iff suffix args s h hcheck]
    simp only [result_eq_unchanged_iff]
  · intro hcheck trackedArgs tracked
    have htracked : Options.read suffix trackedArgs = .ok { o with fixedOffsets := false } := by
      rw [Options.read_without _ h]
      simp [Options.without]
    have hledger : s.tree.ledger { o with fixedOffsets := false } (s.tree.inputs o) =
        s.tree.ledger o (s.tree.inputs o) := by
      apply ledger_of_not_writes <;> simp [Options.writesFiles, hcheck]
    refine ⟨htracked, ?_, ?_⟩
    · rw [exit_command suffix trackedArgs s htracked, exit_command suffix args s h]
      exact congrArg (fun entries => (tally entries).exit o.check) hledger
    · rw [reports_command suffix trackedArgs s htracked, reports_command suffix args s h]
      exact congrArg (fun entries => s.reports ++ entries.map LedgerEntry.line) hledger

end

/-- The file is in order, so the check succeeds, and the plain run has nothing to do. -/
theorem command_check_predicts_in_order :
    let s : Session :=
      ⟨(FileTree.atFolder []).addFile [Ascii.word "a.proto"]
        (Ascii.word "message M { int32 a = 1; }"), []⟩
    ((command none ["--check", "a.proto", "--legacy-offsets"] : InMemory _).run s).1.code = 0 ∧
      ((command none ["a.proto", "--legacy-offsets"] : InMemory _).run s).2.reports =
        ["a.proto: no changes"] ∧
      ((command none ["--check", "a.proto"] : InMemory _).run s).1 = ⟨0, none⟩ := by
  intro s
  have hread : Options.read none ["--check", "a.proto", "--legacy-offsets"] =
      .ok ⟨[Ascii.word "a.proto"], 0, false, true, false, ".bak", true, none⟩ := by decide +kernel
  have hplain : withoutSwitches [.dryRun, .check] ["--check", "a.proto", "--legacy-offsets"] =
      ["a.proto", "--legacy-offsets"] := by decide
  have htracked : withoutSwitches [.fixedOffsets] ["--check", "a.proto", "--legacy-offsets"] =
      ["--check", "a.proto"] := by decide
  have hexit : ((command none ["--check", "a.proto", "--legacy-offsets"] : InMemory _).run s).1 =
      ⟨0, none⟩ := by decide +kernel
  obtain ⟨-, hagainst, hoffsets⟩ :=
    command_check_predicts none ["--check", "a.proto", "--legacy-offsets"] s hread
  have hsame := (hoffsets rfl).2.1
  have hrun := (hagainst rfl).2.mp (congrArg Exit.code hexit)
  rw [htracked] at hsame
  rw [hplain] at hrun
  exact ⟨congrArg Exit.code hexit, hrun.2.1, hsame.trans hexit⟩

end FieldTags
