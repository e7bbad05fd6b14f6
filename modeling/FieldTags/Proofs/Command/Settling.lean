import FieldTags.Proofs.Command.Spared
import FieldTags.Proofs.Document.OldTags
import FieldTags.Proofs.Document.Offsets

/-! A run that succeeds settles its inputs. Each of them then holds a text that renumbering leaves as it
is, and no step of this run or of a later one puts another text in its place. -/
namespace FieldTags

structure FileTree.Settled (t : FileTree) (path : Bytes) (c : Bytes) : Prop where
  read : t.read path = .ok c
  numbered : (renumberDocument .tracked c).text = c

section
variable {o : Options} {path other : Bytes} {t t' : FileTree} {r : Except Trouble Report}
  {c : Bytes}

/-- What is settled stays, whatever path the step is for: a backup goes over the same text only, and the
new text is the old one. -/
theorem FileStep.settled (h : FileStep o path t r t') (hoffsets : o.offsets = .tracked)
    (hc : t.Settled other c) : t'.Settled other c := by
  obtain ⟨l, hl, hfile⟩ := FileTree.read_eq_ok_iff.mp hc.read
  have hl' : t'.target other = .ok l := (h.target_iff other).mpr hl
  suffices hkept : t'.entry? l = some (.file c) from
    ⟨FileTree.read_eq_ok_iff.mpr ⟨l, hl', hkept⟩, hc.numbered⟩
  by_cases hpath : t.target path = .ok l
  · have hsame : ∀ old, t.read path = .ok old → (renumberDocument o.offsets old).text = c := by
      intro old hold
      have hread : t.read path = .ok c := FileTree.read_eq_ok_iff.mpr ⟨l, hpath, hfile⟩
      rw [← Except.ok.inj (hread.symm.trans hold), hoffsets, hc.numbered]
    cases h with
    | stays => exact hfile
    | plain _ _ hread _ hnew =>
      rw [← hsame _ hread]
      exact FileTree.entry?_write_self hnew hpath
    | backed _ _ hread _ _ hkept hnew =>
      rw [← hsame _ hread]
      exact FileTree.entry?_write_self hnew ((FileTree.target_write_iff hkept).mpr hpath)
  · exact h.entry?_of_ne hpath hfile

theorem FileResult.settled (h : FileResult o path t r t') (hoffsets : o.offsets = .tracked)
    (hwrites : o.writesFiles = true) (hr : isFailure r = false) : ∃ c, t'.Settled path c := by
  cases h with
  | hindered h => exact absurd h.isFailure (by simp [hr])
  | unchanged htext hsame =>
    rw [hoffsets] at hsame
    exact ⟨_, htext.read, renumberDocument_text_of_unchanged hsame⟩
  | wouldRenumber _ _ hnone => exact absurd hnone (by simp [hwrites])
  | plain hdue _ hnew =>
    rw [hoffsets] at hnew
    exact ⟨_, FileTree.read_write hnew rfl, renumberDocument_again hdue.valid⟩
  | backed hdue _ _ _ hnew =>
    rw [hoffsets] at hnew
    exact ⟨_, FileTree.read_write hnew rfl, renumberDocument_again hdue.valid⟩

theorem settled_foldl_processed (hoffsets : o.offsets = .tracked) (paths : List Bytes)
    (h : t.Settled path c) : (paths.foldl (FileTree.processed o) t).Settled path c :=
  List.foldlRecOn (motive := fun t => t.Settled path c) paths _ h fun t hc other _ =>
    (fileStep_processed o t other).settled hoffsets hc

theorem exists_settled (hoffsets : o.offsets = .tracked) (hwrites : o.writesFiles = true)
    {paths : List Bytes} (h : ∀ e ∈ t.ledger o paths, isFailure e.2 = false) :
    ∀ path ∈ paths, ∃ c, (paths.foldl (FileTree.processed o) t).Settled path c := by
  induction paths generalizing t with
  | nil => exact nofun
  | cons first paths ih =>
    obtain ⟨hfirst, hlater⟩ := List.forall_mem_cons.mp h
    intro path hpath
    cases List.mem_cons.mp hpath with
    | inl heq =>
      obtain ⟨c, hc⟩ := (fileResult_processed o t first).settled hoffsets hwrites hfirst
      rw [heq]
      exact ⟨c, settled_foldl_processed hoffsets paths hc⟩
    | inr hin => exact ih hlater path hin

end

/-- If a run that writes succeeds, with the offsets tracked, then the same command on the tree that it
left leaves every file that was processed with the text that it has. -/
theorem command_settles {suffix : Option String} {args : List String} {o : Options}
    (ho : Options.read suffix args = .ok o) (hdry : o.dryRun = false) (hcheck : o.check = false)
    (hfixed : o.fixedOffsets = false) (s : Session) :
    let first := (command suffix args : InMemory _).run s
    first.1.code = 0 → ∀ again : Session, again.tree = first.2.tree →
      let second := (command suffix args : InMemory _).run again
      ∀ path ∈ s.tree.inputs o, ∃ c,
        first.2.tree.read path = .ok c ∧ second.2.tree.read path = .ok c := by
  intro first hcode again hagain second path hpath
  have hoffsets : o.offsets = .tracked := by simp [Options.offsets, hfixed]
  have hwrites : o.writesFiles = true := by simp [Options.writesFiles, hdry, hcheck]
  have hfirst : first.2.tree = (s.tree.inputs o).foldl (FileTree.processed o) s.tree :=
    tree_command suffix args s ho
  have hnone : ∀ e ∈ s.tree.ledger o (s.tree.inputs o), isFailure e.2 = false := by
    have hexit : first.1 = _ := exit_command suffix args s ho
    rw [hexit] at hcode
    simpa [tally] using (Tally.exit_code_eq_zero_iff.mp hcode).1
  obtain ⟨c, hc⟩ := exists_settled hoffsets hwrites hnone path hpath
  rw [← hfirst] at hc
  refine ⟨c, hc.read, ?_⟩
  have hsecond : second.2.tree = (again.tree.inputs o).foldl (FileTree.processed o) again.tree :=
    tree_command suffix args again ho
  rw [hsecond, hagain]
  exact (settled_foldl_processed hoffsets _ hc).read

/-- The second input is the first one under another name. -/
theorem command_settles_aliased :
    let args := ["a.proto", "./a.proto"]
    let other := Ascii.word "./a.proto"
    let s : Session := ⟨(FileTree.atFolder []).addFile [Ascii.word "a.proto"]
      (Ascii.word "message M { int32 a = 5; }"), []⟩
    ((command none args : InMemory _).run s).1.code = 0 ∧
      ∃ c, ((command none args : InMemory _).run s).2.tree.read other = .ok c ∧
        ((command none args : InMemory _).run
          ((command none args : InMemory _).run s).2).2.tree.read other = .ok c := by
  intro args other s
  let o : Options := ⟨args.map Bytes.ofString, 0, false, false, false, ".bak", false, none⟩
  have hread : Options.read none args = .ok o := by decide +kernel
  have hcode : ((command none args : InMemory _).run s).1.code = 0 := by decide +kernel
  have hinput : other ∈ s.tree.inputs o := by decide +kernel
  exact ⟨hcode, command_settles hread rfl rfl rfl s hcode _ rfl _ hinput⟩

end FieldTags
