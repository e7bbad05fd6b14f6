import FieldTags.Proofs.Command.Results

/-! What becomes of the files as a run goes through its inputs. Each input is one step: the tree stays as
it is, or a text that was read goes to its backup, if one is wanted, and is then overwritten. What is
reported of the inputs, one after the other, is the ledger of the run; its counts decide how it ends. -/
namespace FieldTags
open InMemory

/-- What processing the file `path` makes of a tree, by what is reported of it. -/
inductive FileStep (o : Options) (path : Bytes) (t : FileTree) :
    Except Trouble Report → FileTree → Prop where
  | stays {r : Except Trouble Report} (hr : ∀ kept, r ≠ .ok (.renumbered kept)) : FileStep o path t r t
  | plain {old : Bytes} {t' : FileTree} (hwrites : o.writesFiles = true) (hkeep : o.noBackup = true)
      (hread : t.read path = .ok old) (hchanged : (renumberDocument o.offsets old).changed = true)
      (hnew : t.write path (renumberDocument o.offsets old).text = .ok t') :
      FileStep o path t (.ok (.renumbered none)) t'
  | backed {old : Bytes} {backup : Bytes} {between t' : FileTree} (hwrites : o.writesFiles = true)
      (hkeep : o.noBackup = false) (hread : t.read path = .ok old)
      (hchanged : (renumberDocument o.offsets old).changed = true)
      (hchoose : (onTree (Backup.choose o.verbosity path o.backupSuffix old) t).1 = .ok backup)
      (hkept : t.write backup old = .ok between)
      (hnew : between.write path (renumberDocument o.offsets old).text = .ok t') :
      FileStep o path t (.ok (.renumbered (some backup))) t'

theorem FileStep.renumbered_of_ne {o : Options} {path : Bytes} {t t' : FileTree}
    {r : Except Trouble Report} (h : FileStep o path t r t') (hne : t' ≠ t) :
    ∃ kept, r = .ok (.renumbered kept) := by
  cases h with
  | stays => exact absurd rfl hne
  | plain => exact ⟨_, rfl⟩
  | backed => exact ⟨_, rfl⟩

theorem FileResult.step {o : Options} {path : Bytes} {t t' : FileTree} {r : Except Trouble Report}
    (h : FileResult o path t r t') : FileStep o path t r t' := by
  cases h with
  | hindered h =>
    apply FileStep.stays
    intro kept
    cases h <;> exact nofun
  | unchanged | wouldRenumber => exact .stays nofun
  | plain hdue hkeep hnew => exact .plain hdue.writes hkeep hdue.read hdue.changed hnew
  | backed hdue hkeep hplace hkept hnew =>
    have hchoose := (Backup.ends_choose o.verbosity hplace).onTree
    exact .backed hdue.writes hkeep hdue.read hdue.changed (congrArg Prod.fst hchoose) hkept hnew

def FileTree.result (o : Options) (t : FileTree) (path : Bytes) : Except Trouble Report :=
  (onTree (renumberFile o path) t).1

def FileTree.processed (o : Options) (t : FileTree) (path : Bytes) : FileTree :=
  (onTree (renumberFile o path) t).2

theorem result_and_processed {o : Options} {path : Bytes} {t t' : FileTree}
    {r : Except Trouble Report} (h : FileResult o path t r t') :
    t.result o path = r ∧ t.processed o path = t' :=
  Prod.mk.inj (ends_renumberFile h).onTree

theorem fileResult_processed (o : Options) (t : FileTree) (path : Bytes) :
    FileResult o path t (t.result o path) (t.processed o path) := by
  obtain ⟨r, t', h⟩ := exists_fileResult o path t
  obtain ⟨rfl, rfl⟩ := result_and_processed h
  exact h

theorem fileStep_processed (o : Options) (t : FileTree) (path : Bytes) :
    FileStep o path t (t.result o path) (t.processed o path) :=
  (fileResult_processed o t path).step

theorem renumberFile_step {o : Options} {path : Bytes} {s s' : Session}
    {r : Except Trouble Report} (h : (renumberFile o path : InMemory _).run s = (r, s')) :
    FileStep o path s.tree r s'.tree := by
  obtain ⟨hr, htree⟩ := (ends_renumberFile (fileResult_processed o s.tree path)).eq h
  rw [hr, htree]
  exact fileStep_processed o s.tree path

/-! The ledger. -/

def isFailure : Except Trouble Report → Bool
  | .error _ | .ok .notFound => true
  | .ok _ => false

theorem Hindered.isFailure {o : Options} {path : Bytes} {t : FileTree} {r : Except Trouble Report}
    (h : Hindered o path t r) : isFailure r = true := by
  cases h <;> rfl

def isChange : Except Trouble Report → Bool
  | .error _ => false
  | .ok r => r.isChange

abbrev LedgerEntry := Bytes × Except Trouble Report

def LedgerEntry.line (e : LedgerEntry) : String :=
  match e.2 with
  | .ok r => s!"{e.1.toText}: {r.describe}"
  | .error trouble => s!"{e.1.toText}: error: {trouble.describe}"

def FileTree.ledger (o : Options) : FileTree → List Bytes → List LedgerEntry
  | _, [] => []
  | t, path :: paths => (path, t.result o path) :: (t.processed o path).ledger o paths

theorem map_fst_ledger (o : Options) (t : FileTree) (paths : List Bytes) :
    (t.ledger o paths).map Prod.fst = paths := by
  induction paths generalizing t with
  | nil => rfl
  | cons path paths ih => rw [FileTree.ledger, List.map_cons, ih]

def tally (entries : List LedgerEntry) : Tally :=
  ⟨entries.length, entries.countP (isChange ·.2), entries.countP (isFailure ·.2)⟩

theorem count_eq (counts : Tally) (r : Except Trouble Report) :
    counts.count r = ⟨counts.processed + 1, counts.changed + (if isChange r then 1 else 0),
      counts.failed + (if isFailure r then 1 else 0)⟩ := by
  cases r with
  | error e => rfl
  | ok r => cases r <;> rfl

theorem foldl_count (entries : List LedgerEntry) (counts : Tally) :
    entries.foldl (fun counts e => counts.count e.2) counts =
      ⟨counts.processed + (tally entries).processed, counts.changed + (tally entries).changed,
        counts.failed + (tally entries).failed⟩ := by
  induction entries generalizing counts with
  | nil => rfl
  | cons e entries ih =>
    rw [List.foldl_cons, ih, count_eq]
    simp only [tally, List.length_cons, List.countP_cons, Tally.mk.injEq]
    omega

theorem reports_say (t : FileTree) (said : List Line) (text : String) :
    Session.reports ⟨t, .report text :: said⟩ = Session.reports ⟨t, said⟩ ++ [text] := by
  simp [Session.reports, Line.report?]

theorem run_report (o : Options) (path : Bytes) (r : Except Trouble Report) (s : Session) :
    ∃ s', (report o path r : InMemory _).run s = ((), s') ∧ s'.tree = s.tree ∧
      s'.reports = s.reports ++ [LedgerEntry.line (path, r)] := by
  cases r with
  | ok r => exact ⟨_, rfl, rfl, reports_say _ _ _⟩
  | error e =>
    obtain ⟨s', hrun, htree, hreports⟩ := (ends_tell o.verbosity _ s.tree).run
    rw [report, run_bind, hrun]
    refine ⟨_, rfl, htree, ?_⟩
    rw [← hreports]
    exact reports_say _ _ _

/-- A run over files makes their steps one after the other, and counts and reports what is in its
ledger. -/
theorem run_renumberFiles (o : Options) (counts : Tally) (paths : List Bytes) (s : Session) :
    ∃ s', (renumberFiles o counts paths : InMemory _).run s =
        ((s.tree.ledger o paths).foldl (fun counts e => counts.count e.2) counts, s') ∧
      s'.tree = paths.foldl (FileTree.processed o) s.tree ∧
      s'.reports = s.reports ++ (s.tree.ledger o paths).map LedgerEntry.line := by
  induction paths generalizing counts s with
  | nil => exact ⟨s, rfl, rfl, (List.append_nil _).symm⟩
  | cons path paths ih =>
    have hfile := ends_renumberFile (fileResult_processed o s.tree path)
    obtain ⟨s₁, hrun₁, htree₁, hreports₁⟩ := hfile.run
    obtain ⟨s₂, hrun₂, htree₂, hreports₂⟩ := run_report o path (s.tree.result o path) s₁
    obtain ⟨s₃, hrun₃, htree₃, hreports₃⟩ := ih (counts.count (s.tree.result o path)) s₂
    rw [htree₂, htree₁] at hrun₃ htree₃ hreports₃
    refine ⟨s₃, ?_, htree₃, ?_⟩
    · rw [renumberFiles, run_bind, hrun₁, run_bind, hrun₂]
      exact hrun₃
    · rw [hreports₃, hreports₂, hreports₁, List.append_assoc]
      rfl

theorem tree_renumberFiles (o : Options) (counts : Tally) (paths : List Bytes) (s : Session) :
    ((renumberFiles o counts paths : InMemory _).run s).2.tree =
      paths.foldl (FileTree.processed o) s.tree := by
  obtain ⟨s', hrun, htree, -⟩ := run_renumberFiles o counts paths s
  rw [hrun, htree]

theorem reports_renumberFiles (o : Options) (counts : Tally) (paths : List Bytes) (s : Session) :
    ((renumberFiles o counts paths : InMemory _).run s).2.reports =
      s.reports ++ (s.tree.ledger o paths).map LedgerEntry.line := by
  obtain ⟨s', hrun, -, hreports⟩ := run_renumberFiles o counts paths s
  rw [hrun, hreports]

/-! The files that a command line names. -/

theorem exists_ends_inputsOf (verbosity : Nat) (levels : Option Nat) (path : Bytes)
    (t : FileTree) : ∃ files, Ends (inputsOf verbosity levels path) t files t := by
  apply (ends_folder? path t).exists_bind
  cases (t.folder? path).map (·.survey path) with
  | none => exact ⟨_, ends_pure _ t⟩
  | some folder =>
    exact ⟨_, (ends_tell _ _ t).bind ((ends_tellAll _ _ t).bind (ends_pure _ t))⟩

theorem exists_ends_inputs (verbosity : Nat) (levels : Option Nat) (paths : List Bytes)
    (t : FileTree) : ∃ files, Ends (inputs verbosity levels paths) t files t := by
  induction paths with
  | nil => exact ⟨_, ends_pure _ t⟩
  | cons path paths ih =>
    obtain ⟨here, hhere⟩ := exists_ends_inputsOf verbosity levels path t
    obtain ⟨later, hlater⟩ := ih
    exact ⟨_, hhere.bind (hlater.bind (ends_pure _ t))⟩

def FileTree.inputs (o : Options) (t : FileTree) : List Bytes :=
  (onTree (FieldTags.inputs o.verbosity o.maxDepth o.paths) t).1

theorem ends_inputs (o : Options) (t : FileTree) :
    Ends (inputs o.verbosity o.maxDepth o.paths) t (t.inputs o) t := by
  obtain ⟨files, h⟩ := exists_ends_inputs o.verbosity o.maxDepth o.paths t
  have hfiles : t.inputs o = files := congrArg Prod.fst h.onTree
  rwa [hfiles]

def Tally.exit (counts : Tally) (check : Bool) : Exit :=
  match counts.complaint? check with
  | none => ⟨0, none⟩
  | some text => ⟨1, some ("Error: " ++ text)⟩

theorem Tally.exit_code_eq_zero_iff {counts : Tally} {check : Bool} :
    (counts.exit check).code = 0 ↔
      counts.failed = 0 ∧ (check = true → counts.changed = 0) := by
  rw [exit, complaint?]
  by_cases hfailed : 0 < counts.failed
  · rw [if_pos hfailed]
    exact ⟨nofun, fun h => absurd h.1 (Nat.ne_of_gt hfailed)⟩
  · rw [if_neg hfailed]
    by_cases hchanged : check ∧ 0 < counts.changed
    · rw [if_pos hchanged]
      exact ⟨nofun, fun h => absurd (h.2 hchanged.1) (Nat.ne_of_gt hchanged.2)⟩
    · rw [if_neg hchanged]
      have hzero := Nat.eq_zero_of_not_pos hfailed
      exact ⟨fun _ => ⟨hzero, fun h => Nat.eq_zero_of_not_pos fun hpos => hchanged ⟨h, hpos⟩⟩,
        fun _ => rfl⟩

theorem run_run (o : Options) (s : Session) :
    let entries := s.tree.ledger o (s.tree.inputs o)
    ∃ s', (run o : InMemory _).run s = ((tally entries).exit o.check, s') ∧
      s'.tree = (s.tree.inputs o).foldl (FileTree.processed o) s.tree ∧
      s'.reports = s.reports ++ entries.map LedgerEntry.line := by
  intro entries
  have hnote := fun (n : Note) (s : Session) => (ends_tell o.verbosity n s.tree).run
  obtain ⟨s₁, hrun₁, htree₁, hreports₁⟩ := (ends_inputs o s.tree).run
  obtain ⟨s₂, hrun₂, htree₂, hreports₂⟩ := hnote _ s₁
  obtain ⟨s₃, hrun₃, htree₃, hreports₃⟩ := run_renumberFiles o .zero (s.tree.inputs o) s₂
  obtain ⟨s₄, hrun₄, htree₄, hreports₄⟩ := hnote _ s₃
  rw [htree₂, htree₁] at hrun₃ htree₃ hreports₃
  have hcounts : entries.foldl (fun counts e => counts.count e.2) .zero = tally entries := by
    rw [foldl_count]
    simp [Tally.zero]
  rw [hcounts] at hrun₃
  refine ⟨s₄, ?_, htree₄.trans htree₃, ?_⟩
  · rw [run, run_bind, hrun₁, run_bind, hrun₂, run_bind, hrun₃, run_bind, hrun₄]
    simp only [Tally.exit]
    cases (tally entries).complaint? o.check <;> rfl
  · rw [hreports₄, hreports₃, hreports₂, hreports₁]

/-! The whole command. -/

section
variable (suffix : Option String) (args : List String) (s : Session) {o : Options}

theorem exit_command (h : Options.read suffix args = .ok o) :
    ((command suffix args : InMemory _).run s).1 =
      (tally (s.tree.ledger o (s.tree.inputs o))).exit o.check := by
  obtain ⟨s', hrun, -⟩ := run_run o s
  rw [command, h]
  exact congrArg Prod.fst hrun

theorem tree_command (h : Options.read suffix args = .ok o) :
    ((command suffix args : InMemory _).run s).2.tree =
      (s.tree.inputs o).foldl (FileTree.processed o) s.tree := by
  obtain ⟨s', hrun, htree, -⟩ := run_run o s
  rw [command, h]
  exact (congrArg (·.2.tree) hrun).trans htree

theorem reports_command (h : Options.read suffix args = .ok o) :
    ((command suffix args : InMemory _).run s).2.reports =
      s.reports ++ (s.tree.ledger o (s.tree.inputs o)).map LedgerEntry.line := by
  obtain ⟨s', hrun, -, hreports⟩ := run_run o s
  rw [command, h]
  exact (congrArg (·.2.reports) hrun).trans hreports

theorem tree_command_of_stop {stop : Stop} (h : Options.read suffix args = .error stop) :
    ((command suffix args : InMemory _).run s).2.tree = s.tree := by
  rw [command, h]
  cases stop <;> rfl

/-- What holds at first, and is kept by each step of a run that is asked for, holds at the end. -/
theorem command_invariant {P : FileTree → Prop} (hfirst : P s.tree)
    (hstep : ∀ o, Options.read suffix args = .ok o → ∀ t, P t → ∀ path ∈ s.tree.inputs o,
      P (t.processed o path)) :
    P ((command suffix args : InMemory _).run s).2.tree := by
  cases h : Options.read suffix args with
  | error stop => rwa [tree_command_of_stop suffix args s h]
  | ok o =>
    rw [tree_command suffix args s h]
    exact List.foldlRecOn _ _ hfirst (hstep o h)

end
end FieldTags
