import FieldTags.Command.Arguments
import FieldTags.Proofs.Disk.Paths

/-! Leaving switches out of a command line. What is read then differs in these switches only. The switch
that is left out has no longer what is pending judged before it, but that makes no difference to what
comes behind. -/
namespace FieldTags

/-- The command line without some switches. What is behind `--` are paths. -/
def withoutSwitches (dropped : List Switch) : List String → List String
  | [] => []
  | a :: as =>
    if a = "--" then a :: as
    else if a ∈ dropped.map Switch.display then withoutSwitches dropped as
    else a :: withoutSwitches dropped as

def Options.without (dropped : List Switch) (o : Options) : Options :=
  { o with
    dryRun := o.dryRun && !dropped.contains .dryRun
    check := o.check && !dropped.contains .check
    noBackup := o.noBackup && !dropped.contains .noBackup
    fixedOffsets := o.fixedOffsets && !dropped.contains .fixedOffsets }

namespace Draft

def without (dropped : List Switch) (d : Draft) : Draft :=
  { d with switches := d.switches.filter (! dropped.contains ·) }

/-! Arguments that are not left out are read alike. -/

section
variable {dropped : List Switch}

theorem set_without (d : Draft) (s : Setting) (value : String) :
    (d.without dropped).set s value = without dropped <$> d.set s value := by
  cases s with
  | backupSuffix =>
    simp only [set, apply_ite (without dropped <$> ·)]
    rfl
  | maxDepth =>
    simp only [set, apply_ite (without dropped <$> ·)]
    cases Count.read value <;> rfl

theorem settle_without : ∀ d : Draft, (d.without dropped).settle = without dropped <$> d.settle
  | ⟨_, _, _, _, _, .nothing⟩ => rfl
  | ⟨_, _, _, _, _, .setting _ none⟩ => rfl
  | ⟨ps, v, ss, suffix, depth, .setting s (some value)⟩ =>
    set_without ⟨ps, v, ss, suffix, depth, .nothing⟩ s value
  | ⟨_, _, _, _, _, .paths given⟩ => by
    simp only [settle, apply_ite (without dropped <$> ·)]
    rfl

/-- What is judged first may be judged in either draft. -/
theorem settle_bind_without {f : Draft → Except Stop Draft}
    (hf : ∀ d, f (d.without dropped) = without dropped <$> f d) (d : Draft) :
    (d.without dropped).settle >>= f = without dropped <$> (d.settle >>= f) := by
  rw [settle_without, map_bind, bind_map_left]
  exact congrArg _ (funext hf)

theorem raise_without {f : Flag} (hf : ∀ s ∈ dropped, f ≠ .switch s) (d : Draft) :
    (d.without dropped).raise f = without dropped <$> d.raise f := by
  refine settle_bind_without (fun d => ?_) d
  cases f with
  | switch s =>
    have hs : s ∉ dropped := fun hin => hf s hin rfl
    have hsame : (d.without dropped).switches.contains s = d.switches.contains s := by
      simp [without, hs]
    have hadded : without dropped { d with switches := s :: d.switches } =
        { d.without dropped with switches := s :: (d.without dropped).switches } := by
      simp [without, hs]
    simp only [hsame, ← hadded, apply_ite (without dropped <$> ·)]
    rfl
  | verbose | version | help => rfl

theorem addPath_without (path : String) :
    ∀ d : Draft, (d.without dropped).addPath path = without dropped <$> d.addPath path
  | ⟨_, _, _, _, _, .paths _⟩ => rfl
  | ⟨_, _, _, _, _, .nothing⟩ => rfl
  | ⟨ps, v, ss, suffix, depth, .setting s value⟩ =>
    settle_bind_without (f := fun d => return { d with pending := .paths [path] }) (fun _ => rfl)
      ⟨ps, v, ss, suffix, depth, .setting s value⟩

theorem addPlain_eq_addPath {d : Draft} (h : ∀ s, d.pending ≠ .setting s none) (a : String) :
    d.addPlain a = d.addPath a := by
  rw [addPlain]
  split
  next s hs => exact absurd hs (h s)
  next => rfl

theorem addPlain_without (a : String) (d : Draft) :
    (d.without dropped).addPlain a = without dropped <$> d.addPlain a := by
  by_cases h : ∃ s, d.pending = .setting s none
  · obtain ⟨s, hs⟩ := h
    simp only [addPlain, without, hs]
    rfl
  · have hnone : ∀ s, d.pending ≠ .setting s none := fun s hs => h ⟨s, hs⟩
    rw [addPlain_eq_addPath hnone, addPlain_eq_addPath (d := d.without dropped) hnone, addPath_without]

theorem addLong_without {name : String} {value : Option String}
    (h : value = none → ∀ s ∈ dropped, flags.lookup name ≠ some (.switch s)) (d : Draft) :
    (d.without dropped).addLong name value = without dropped <$> d.addLong name value := by
  unfold addLong
  cases hflag : flags.lookup name with
  | some f =>
    cases value with
    | some value => rfl
    | none =>
      refine raise_without (fun s hs hsame => h rfl s hs ?_) d
      rw [hflag, hsame]
  | none =>
    cases settings.lookup name with
    | none => rfl
    | some s =>
      cases value with
      | none =>
        exact settle_bind_without (f := fun d => return { d with pending := .setting s none })
          (fun _ => rfl) d
      | some value => exact settle_bind_without (f := (·.set s value)) (set_without · s value) d

theorem addLetters_without (cs : List Char) (d : Draft) :
    (d.without dropped).addLetters cs = without dropped <$> d.addLetters cs := by
  induction cs generalizing d with
  | nil => rfl
  | cons c cs ih =>
    rw [addLetters, addLetters]
    cases hletter : letters.lookup c with
    | none => rfl
    | some f =>
      change (d.without dropped).raise f >>= _ = without dropped <$> (d.raise f >>= _)
      have hf : ∀ s ∈ dropped, f ≠ .switch s := by
        intro s _ hs
        obtain ⟨before, later, hletters, -⟩ := List.lookup_eq_some_iff.mp hletter
        have hin : (c, f) ∈ letters := by simp [hletters]
        simp [letters, hs] at hin
      rw [raise_without hf, map_bind, bind_map_left]
      exact congrArg _ (funext ih)

theorem display_of_lookup {name : String} {s : Switch} (h : flags.lookup name = some (.switch s)) :
    "--" ++ name = s.display := by
  obtain ⟨before, later, hflags, -⟩ := List.lookup_eq_some_iff.mp h
  have hin : (name, Flag.switch s) ∈ flags := by simp [hflags]
  cases s <;>
  · simp [flags] at hin
    rw [hin]
    rfl

theorem add_without {a : String} (ha : a ∉ dropped.map Switch.display) (d : Draft) :
    (d.without dropped).add a = without dropped <$> d.add a := by
  unfold add
  split
  · rename_i cs hcs
    refine addLong_without (fun hnone s hs hflag => ha ?_) d
    have hwhole : cs.takeWhile (· ≠ '=') = cs := by
      have hlength : ¬ (cs.takeWhile (· ≠ '=')).length < cs.length := by
        intro hlt
        rw [if_pos hlt] at hnone
        exact absurd hnone nofun
      exact (List.takeWhile_prefix _).eq_of_length_le (Nat.le_of_not_lt hlength)
    rw [hwhole] at hflag
    have hdisplay : a = s.display := by
      rw [← display_of_lookup hflag]
      apply String.ext
      simp [hcs]
    rw [hdisplay]
    exact List.mem_map_of_mem hs
  · exact addLetters_without _ d
  · exact addPlain_without a d

end

/-! What is pending may be judged before the next argument is read. -/

section
variable {d x : Draft} {given : List String}

theorem settle_of_pending (h : d.pending = .nothing) : d.settle = .ok d := by
  rw [settle, h]

theorem pending_of_set {s : Setting} {value : String} (h : d.set s value = .ok x) :
    x.pending = d.pending := by
  cases s with
  | backupSuffix =>
    simp only [set] at h
    split at h
    next => exact absurd h nofun
    next => rw [← Except.ok.inj h]
  | maxDepth =>
    simp only [set] at h
    split at h
    next => exact absurd h nofun
    next =>
      cases hcount : Count.read value with
      | error e =>
        rw [hcount] at h
        exact absurd h nofun
      | ok n =>
        rw [hcount] at h
        rw [← Except.ok.inj h]

theorem settle_eq_ok_paths (hd : d.pending = .paths given) (h : d.settle = .ok x) :
    "" ∉ given ∧ x = { d with paths := d.paths ++ given, pending := .nothing } := by
  rw [settle, hd] at h
  simp only at h
  split at h
  next => exact absurd h nofun
  next hempty => exact ⟨by simpa using hempty, (Except.ok.inj h).symm⟩

theorem pending_of_settle (h : d.settle = .ok x) : x.pending = .nothing := by
  cases hd : d.pending with
  | nothing =>
    rw [settle_of_pending hd] at h
    rw [← Except.ok.inj h, hd]
  | setting s value =>
    rw [settle, hd] at h
    cases value with
    | none => exact absurd h nofun
    | some value => exact pending_of_set h
  | paths given => rw [(settle_eq_ok_paths hd h).2]

/-- The reading of what follows does not depend on which of the paths were judged. -/
def Regroups (f : Draft → Except Stop Draft) : Prop :=
  ∀ (d : Draft) (judged given : List String), "" ∉ judged →
    f { d with pending := .paths (judged ++ given) } =
      f { d with paths := d.paths ++ judged, pending := .paths given }

theorem regroups_settle : Regroups settle := by
  intro d judged given hjudged
  simp [settle, hjudged, List.append_assoc]

theorem Regroups.addPath {f : Draft → Except Stop Draft} (hf : Regroups f) (path : String) :
    Regroups fun d => d.addPath path >>= f := by
  intro d judged given hjudged
  change f { d with pending := .paths (judged ++ given ++ [path]) } = _
  rw [List.append_assoc]
  exact hf d judged (given ++ [path]) hjudged

theorem regroups_addPaths (as : List String) : Regroups (addPaths · as) := by
  induction as with
  | nil => exact regroups_settle
  | cons a as ih => exact ih.addPath a

theorem add_plain_or_settled (a : String) :
    (∀ d : Draft, d.add a = d.addPlain a) ∨
      ∀ d e : Draft, d.settle = e.settle → d.add a = e.add a := by
  unfold add
  generalize a.toList = chars
  cases chars with
  | nil => exact .inl fun _ => rfl
  | cons c chars =>
    by_cases hc : c = '-'
    · subst hc
      cases chars with
      | nil => exact .inl fun _ => rfl
      | cons c cs =>
        right
        intro d e h
        split
        next => simp only [addLong, raise, h]
        next heq =>
          obtain ⟨rfl, rfl⟩ := List.cons.inj (List.cons.inj heq).2
          simp only [addLetters, raise, h]
        next hplain => exact absurd rfl (hplain c cs)
    · left
      intro d
      split
      next heq => exact absurd (List.cons.inj heq).1 hc
      next heq => exact absurd (List.cons.inj heq).1 hc
      next => rfl

theorem regroups_addAll (as : List String) : Regroups (addAll · as) := by
  induction as with
  | nil => exact regroups_settle
  | cons a as ih =>
    simp only [addAll]
    by_cases ha : a = "--"
    · simp only [if_pos ha]
      exact regroups_addPaths as
    · simp only [if_neg ha]
      cases add_plain_or_settled a with
      | inl hplain =>
        simp only [hplain]
        exact ih.addPath a
      | inr hsettled =>
        intro d judged given hjudged
        exact congrArg (· >>= (addAll · as)) (hsettled _ _ (regroups_settle d judged given hjudged))

theorem Regroups.of_settle {f : Draft → Except Stop Draft} (hf : Regroups f)
    (h : d.settle = .ok x) (path : String) : x.addPath path >>= f = d.addPath path >>= f := by
  have hx := pending_of_settle h
  cases hd : d.pending with
  | nothing =>
    rw [settle_of_pending hd] at h
    rw [Except.ok.inj h]
  | setting s value =>
    rw [Draft.addPath, Draft.addPath, hx, hd]
    simp only [h, settle_of_pending hx]
  | paths given =>
    obtain ⟨hgiven, rfl⟩ := settle_eq_ok_paths hd h
    have hregroups := hf d given [path] hgiven
    rw [Draft.addPath, Draft.addPath, hd]
    exact hregroups.symm

theorem addPaths_of_settle (h : d.settle = .ok x) (as : List String) :
    x.addPaths as = d.addPaths as := by
  cases as with
  | nil => rw [addPaths, addPaths, h, settle_of_pending (pending_of_settle h)]
  | cons a as => exact (regroups_addPaths as).of_settle h a

/-- All that follows is read alike when what is pending is judged first. -/
theorem addAll_of_settle (h : d.settle = .ok x) (as : List String) : x.addAll as = d.addAll as := by
  have hx := settle_of_pending (pending_of_settle h)
  cases as with
  | nil => rw [addAll, addAll, h, hx]
  | cons a as =>
    rw [addAll, addAll]
    split
    · exact addPaths_of_settle h as
    · cases add_plain_or_settled a with
      | inl hplain =>
        have hpending : ∀ s, d.pending ≠ .setting s none := by
          intro s hs
          rw [settle, hs] at h
          exact absurd h nofun
        have hpending' : ∀ s, x.pending ≠ .setting s none := by
          rw [pending_of_settle h]
          exact fun s => nofun
        rw [hplain, hplain, addPlain_eq_addPath hpending, addPlain_eq_addPath hpending']
        exact (regroups_addAll as).of_settle h a
      | inr hsettled => rw [hsettled x d (hx.trans h.symm)]

end

/-! The whole command line. -/

section
variable {dropped : List Switch} {d x : Draft}

theorem add_display (d : Draft) (s : Switch) : d.add s.display = d.raise (.switch s) := by
  cases s <;> rfl

theorem addPaths_without (as : List String) (d : Draft) :
    (d.without dropped).addPaths as = without dropped <$> d.addPaths as := by
  induction as generalizing d with
  | nil => exact settle_without d
  | cons a as ih =>
    change (d.without dropped).addPath a >>= _ = without dropped <$> (d.addPath a >>= _)
    rw [addPath_without, map_bind, bind_map_left]
    exact congrArg _ (funext ih)

theorem without_of_raise {s : Switch} (hs : s ∈ dropped) (h : d.raise (.switch s) = .ok x) :
    ∃ y, d.settle = .ok y ∧ x.without dropped = y.without dropped := by
  obtain ⟨y, hy, hx⟩ := exists_ok_of_bind_eq_ok h
  refine ⟨y, hy, ?_⟩
  simp only at hx
  split at hx
  next => exact absurd hx nofun
  next =>
    rw [← Except.ok.inj hx]
    simp [without, hs]

theorem addAll_without {as : List String} (h : d.addAll as = .ok x) :
    (d.without dropped).addAll (withoutSwitches dropped as) = .ok (x.without dropped) := by
  induction as generalizing d with
  | nil =>
    rw [withoutSwitches, addAll, settle_without]
    exact congrArg (without dropped <$> ·) h
  | cons a as ih =>
    rw [addAll] at h
    rw [withoutSwitches]
    by_cases hend : a = "--"
    · rw [if_pos hend] at h ⊢
      rw [addAll, if_pos hend, addPaths_without, h]
      rfl
    · rw [if_neg hend] at h ⊢
      obtain ⟨next, hnext, hlater⟩ := exists_ok_of_bind_eq_ok h
      by_cases hdropped : a ∈ dropped.map Switch.display
      · rw [if_pos hdropped]
        obtain ⟨s, hs, rfl⟩ := List.mem_map.mp hdropped
        rw [add_display] at hnext
        obtain ⟨y, hy, hsame⟩ := without_of_raise hs hnext
        have hsettle : (d.without dropped).settle = .ok (y.without dropped) := by
          rw [settle_without, hy]
          rfl
        rw [← addAll_of_settle hsettle, ← hsame]
        exact ih hlater
      · rw [if_neg hdropped, addAll, if_neg hend, add_without hdropped, hnext]
        exact ih hlater

end
end Draft

theorem Options.read_without {suffix : Option String} {args : List String} {o : Options}
    (dropped : List Switch) (h : Options.read suffix args = .ok o) :
    Options.read suffix (withoutSwitches dropped args) = .ok (o.without dropped) := by
  obtain ⟨d, hd, ho⟩ := exists_ok_of_bind_eq_ok h
  have hread : Draft.start.addAll (withoutSwitches dropped args) = .ok (d.without dropped) :=
    Draft.addAll_without hd
  have hswitch : ∀ s, (d.without dropped).switches.contains s =
      (d.switches.contains s && !dropped.contains s) := by
    intro s
    rw [Bool.eq_iff_iff]
    simp [Draft.without]
  rw [Options.read, hread]
  change (if (d.without dropped).paths = [] then _ else _) = _
  by_cases hpaths : d.paths = []
  · rw [if_pos hpaths] at ho
    exact absurd ho nofun
  · rw [if_neg hpaths] at ho
    rw [if_neg (show (d.without dropped).paths ≠ [] from hpaths), ← Except.ok.inj ho]
    simp only [hswitch]
    rfl

end FieldTags
