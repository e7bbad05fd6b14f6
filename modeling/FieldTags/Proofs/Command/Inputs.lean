import FieldTags.Proofs.Command.Steps
import FieldTags.Proofs.Disk.Walk

/-! The files that a command line names. Below a folder they are the schema files that no hidden name and
no depth keeps out, in the order of their names. -/
namespace FieldTags
open InMemory

/-! Names of schema files. -/

theorem extension?_eq (name : Bytes) : extension? name =
    match name.reverse.dropWhile (· ≠ Ascii.dot) with
    | _ :: _ :: _ => some (name.reverse.takeWhile (· ≠ Ascii.dot)).reverse
    | _ => none := by
  have hsplit := List.takeWhile_append_dropWhile (p := (· ≠ Ascii.dot)) (l := name.reverse)
  have hdrop : name.reverse.drop (name.reverse.takeWhile (· ≠ Ascii.dot)).length =
      name.reverse.dropWhile (· ≠ Ascii.dot) := by
    calc name.reverse.drop (name.reverse.takeWhile (· ≠ Ascii.dot)).length
        = (name.reverse.takeWhile (· ≠ Ascii.dot) ++ name.reverse.dropWhile (· ≠ Ascii.dot)).drop
            (name.reverse.takeWhile (· ≠ Ascii.dot)).length := by rw [hsplit]
      _ = name.reverse.dropWhile (· ≠ Ascii.dot) := List.drop_left
  rw [← hdrop]
  rfl

theorem extension?_eq_some_iff {name : Bytes} {ext : Bytes} :
    extension? name = some ext ↔
      ∃ stem, stem ≠ [] ∧ name = stem ++ Ascii.dot :: ext ∧ Ascii.dot ∉ ext := by
  rw [extension?_eq]
  constructor
  · intro h
    have hsplit := List.takeWhile_append_dropWhile (p := (· ≠ Ascii.dot)) (l := name.reverse)
    have hhead := List.head?_dropWhile_not (· ≠ Ascii.dot) name.reverse
    split at h
    next dot c more heq =>
      rw [heq] at hsplit hhead
      obtain rfl : dot = Ascii.dot := by simpa using hhead
      refine ⟨(c :: more).reverse, by simp, ?_, fun hdot => ?_⟩
      · have hname := congrArg List.reverse hsplit
        rw [List.reverse_reverse, List.reverse_append] at hname
        rw [← hname, ← Option.some.inj h]
        simp
      · rw [← Option.some.inj h, List.mem_reverse] at hdot
        simpa using List.all_eq_true.mp List.all_takeWhile _ hdot
    next => exact absurd h nofun
  · rintro ⟨stem, hne, hname, hext⟩
    have hreverse : name.reverse = ext.reverse ++ Ascii.dot :: stem.reverse := by
      rw [hname]
      simp
    have hstem : stem.reverse ≠ [] := by simpa using hne
    obtain ⟨c, more, hcons⟩ := List.exists_cons_of_ne_nil hstem
    have hpass : ∀ c ∈ ext.reverse, (decide (c ≠ Ascii.dot)) = true := by
      intro c hc
      have : c ≠ Ascii.dot := fun h => hext (h ▸ List.mem_reverse.mp hc)
      simpa using this
    rw [hreverse, List.takeWhile_append_of_pos hpass, List.dropWhile_append_of_pos hpass, hcons]
    simp

theorem isSchemaName_iff {name : Bytes} :
    isSchemaName name = true ↔ ∃ stem ext : Bytes, stem ≠ [] ∧
      name = stem ++ Ascii.dot :: ext ∧ Ascii.dot ∉ ext ∧ ext.map Ascii.toLower = Ascii.word "proto" := by
  rw [isSchemaName, beq_iff_eq, Option.map_eq_some_iff]
  constructor
  · rintro ⟨ext, hext, hlower⟩
    obtain ⟨stem, hne, hname, hdot⟩ := extension?_eq_some_iff.mp hext
    exact ⟨stem, ext, hne, hname, hdot, hlower⟩
  · rintro ⟨stem, ext, hne, hname, hdot, hlower⟩
    exact ⟨ext, extension?_eq_some_iff.mpr ⟨stem, hne, hname, hdot⟩, hlower⟩

/-! The files met below a folder. -/

theorem isHidden_eq_false_iff {name : Bytes} :
    isHidden name = false ↔ (Utf8.isValid name = true → name.head? ≠ some Ascii.dot) := by
  cases hv : Utf8.isValid name <;> simp [isHidden, hv]

/-- The names lead to a schema file within the given number of levels, past nothing hidden. -/
def isChosen (levels : Option Nat) (names : List Bytes) : Bool :=
  levels.all (names.length ≤ ·) && names.all (! isHidden ·) && names.getLast?.any isSchemaName

theorem isChosen_singleton (levels : Option Nat) (name : Bytes) :
    isChosen levels [name] = (decide (levels ≠ some 0 ∧ ¬ isHidden name) && isSchemaName name) := by
  cases levels with
  | none => simp [isChosen]
  | some n => cases n <;> simp [isChosen]

theorem isChosen_cons (levels : Option Nat) (name : Bytes) {names : List Bytes} (h : names ≠ []) :
    isChosen levels (name :: names) =
      (decide (levels ≠ some 0 ∧ ¬ isHidden name) && isChosen (levels.map (· - 1)) names) := by
  rw [isChosen, isChosen, List.getLast?_cons_of_ne_nil h]
  cases levels with
  | none => simp [Bool.and_assoc]
  | some n => cases n <;> simp [Bool.and_assoc, Bool.and_left_comm]

theorem filter_isChosen_folder {α : Type} (levels : Option Nat) (name : Bytes) (inner : Dir α) :
    ((inner.files.map fun (below, c) => (name :: below, c)).map (·.1)).filter (isChosen levels) =
      if levels ≠ some 0 ∧ ¬ isHidden name then
        ((inner.files.map (·.1)).filter (isChosen (levels.map (· - 1)))).map (name :: ·)
      else [] := by
  have hcons : ∀ names ∈ inner.files.map (·.1), isChosen levels (name :: names) =
      (decide (levels ≠ some 0 ∧ ¬ isHidden name) && isChosen (levels.map (· - 1)) names) := by
    intro names hmem
    obtain ⟨⟨below, c⟩, hfile, rfl⟩ := List.mem_map.mp hmem
    obtain ⟨n, ns, rfl, -⟩ := Dir.exists_cons_of_mem_files hfile
    exact isChosen_cons levels name (List.cons_ne_nil n ns)
  have hmap : (inner.files.map fun (below, c) => (name :: below, c)).map (·.1) =
      (inner.files.map (·.1)).map (name :: ·) := by
    rw [List.map_map, List.map_map]
    rfl
  rw [hmap, List.filter_map]
  split
  next hopen =>
    refine congrArg _ (List.filter_congr fun names hmem => ?_)
    rw [Function.comp_apply, hcons names hmem, decide_eq_true hopen, Bool.true_and]
  next hclosed =>
    rw [List.map_eq_nil_iff, List.filter_eq_nil_iff]
    intro names hmem
    rw [Function.comp_apply, hcons names hmem, decide_eq_false hclosed]
    exact Bool.false_ne_true

theorem map_path_visits {α : Type} (levels : Option Nat) (path : Bytes) (d : Dir α) :
    ((visits levels path d).filter (·.isSchema)).map (·.path) =
      ((d.files.map (·.1)).filter (isChosen levels)).map (·.foldl Path.join path) := by
  induction d generalizing levels path with
  | empty => rfl
  | file name content rest ih =>
    rw [visits, Dir.files, List.map_cons, List.filter_cons, List.filter_append, List.map_append, ih,
      isChosen_singleton]
    by_cases hopen : levels ≠ some 0 ∧ ¬ isHidden name
    · rw [if_pos hopen, decide_eq_true hopen]
      cases isSchemaName name <;> simp
    · rw [if_neg hopen, decide_eq_false hopen]
      rfl
  | folder name inner rest ihi ih =>
    rw [visits, Dir.files, List.map_append, List.filter_append, List.map_append, List.filter_append,
      List.map_append, ih, filter_isChosen_folder]
    congr 1
    by_cases hopen : levels ≠ some 0 ∧ ¬ isHidden name
    · rw [if_pos hopen, if_pos hopen, List.filter_cons_of_neg (by simp), ihi, List.map_map]
      rfl
    · rw [if_neg hopen, if_neg hopen]
      rfl

/-! The files that paths name. -/

section
variable {verbosity : Nat} {levels : Option Nat} {path : Bytes} {t : FileTree} {folder : Dir Bytes}

theorem FileTree.ordered_folder? (h : t.folder? path = some folder) : folder.Ordered := by
  rw [folder?, find?] at h
  cases hlocate : t.locate path with
  | error e => simp [hlocate] at h
  | ok l =>
    cases hentry : t.entry? l with
    | none => simp [hlocate, hentry] at h
    | some e =>
      cases e with
      | file content => simp [hlocate, hentry] at h
      | folder inner =>
        obtain rfl : inner = folder := by simpa [hlocate, hentry] using h
        exact Dir.ordered_of_lookup t.ordered hentry

theorem ends_inputsOf_none (h : t.folder? path = none) :
    Ends (inputsOf verbosity levels path) t [path] t := by
  have hfolder := ends_folder? path t
  rw [h] at hfolder
  exact hfolder.bind (ends_pure [path] t)

theorem ends_inputsOf_some (verbosity : Nat) (levels : Option Nat) (h : t.folder? path = some folder) :
    Ends (inputsOf verbosity levels path) t
      ((((folder.survey path).files.map (·.1)).filter (isChosen levels)).map (·.foldl Path.join path))
      t := by
  have hfolder := ends_folder? path t
  rw [h] at hfolder
  rw [← map_path_visits]
  exact hfolder.bind ((ends_tell _ _ t).bind ((ends_tellAll _ _ t).bind (ends_pure _ t)))

theorem onTree_inputs (verbosity : Nat) (levels : Option Nat) (paths : List Bytes) (t : FileTree) :
    onTree (inputs verbosity levels paths) t =
      (paths.flatMap fun path => (onTree (inputsOf verbosity levels path) t).1, t) := by
  suffices h : Ends (inputs verbosity levels paths) t
      (paths.flatMap fun path => (onTree (inputsOf verbosity levels path) t).1) t from h.onTree
  induction paths with
  | nil => exact ends_pure [] t
  | cons path paths ih =>
    obtain ⟨here, hhere⟩ := exists_ends_inputsOf verbosity levels path t
    have hfirst : (onTree (inputsOf verbosity levels path) t).1 = here :=
      congrArg Prod.fst hhere.onTree
    rw [List.flatMap_cons, hfirst]
    exact hhere.bind (ih.bind (ends_pure _ t))

theorem isChosen_iff {names : List Bytes} :
    isChosen levels names = true ↔ (∀ n ∈ levels, names.length ≤ n) ∧
      (∀ name ∈ names, Utf8.isValid name = true → name.head? ≠ some Ascii.dot) ∧
      ∃ name ∈ names.getLast?, ∃ stem ext : Bytes, stem ≠ [] ∧
        name = stem ++ Ascii.dot :: ext ∧ Ascii.dot ∉ ext ∧
        ext.map Ascii.toLower = Ascii.word "proto" := by
  simp only [isChosen, Bool.and_eq_true, Option.all_eq_true, List.all_eq_true, Option.any_eq_true,
    isSchemaName_iff, Bool.not_eq_true', isHidden_eq_false_iff, and_assoc, Option.mem_def,
    decide_eq_true_eq]

end

/-- The files that paths name, path by path: a path that is no folder names itself, and a folder names
the schema files below it that no hidden name and no depth keeps out, in the order of their names. A name
is hidden if it begins with a dot and is UTF-8. A folder with a path that is too long cannot be read, and
nothing below it is named. -/
theorem inputs_found (verbosity : Nat) (levels : Option Nat) (paths : List Bytes) (t : FileTree) :
    onTree (inputs verbosity levels paths) t =
      (paths.flatMap fun path => (onTree (inputsOf verbosity levels path) t).1, t) ∧
    ∀ path : Bytes,
      (t.folder? path = none → (onTree (inputsOf verbosity levels path) t).1 = [path]) ∧
      ∀ folder : Dir Bytes, t.folder? path = some folder → ∃ found : List (List Bytes),
        (onTree (inputsOf verbosity levels path) t).1 = found.map (·.foldl Path.join path) ∧
        found.Pairwise (· < ·) ∧
        ∀ names : List Bytes, names ∈ found ↔
          (∃ content, folder.lookup names = some (.file content)) ∧
          (∀ n ∈ levels, names.length ≤ n) ∧
          (∀ name ∈ names, Utf8.isValid name = true → name.head? ≠ some Ascii.dot) ∧
          (∃ name ∈ names.getLast?, ∃ stem ext : Bytes, stem ≠ [] ∧
            name = stem ++ Ascii.dot :: ext ∧ Ascii.dot ∉ ext ∧
            ext.map Ascii.toLower = Ascii.word "proto") ∧
          Dir.InReach path names := by
  refine ⟨onTree_inputs verbosity levels paths t, fun path => ⟨fun hnone => ?_, ?_⟩⟩
  · exact congrArg Prod.fst (ends_inputsOf_none hnone).onTree
  · intro folder hfolder
    have hordered := FileTree.ordered_folder? hfolder
    have hnamed := (ends_inputsOf_some verbosity levels hfolder).onTree
    have hsorted : ((folder.survey path).files.map (·.1)).Pairwise (· < ·) :=
      List.pairwise_map.mpr (Dir.pairwise_files (Dir.ordered_survey hordered path))
    refine ⟨_, congrArg Prod.fst hnamed, hsorted.filter _, fun names => ?_⟩
    have hfile : names ∈ (folder.survey path).files.map (·.1) ↔
        (∃ content, folder.lookup names = some (.file content)) ∧ Dir.InReach path names := by
      rw [← Dir.lookup_survey, ← Dir.mem_files (Dir.ordered_survey hordered path), List.mem_map]
      exact ⟨fun ⟨⟨_, _⟩, h, heq⟩ => heq ▸ h, fun h => ⟨_, h, rfl⟩⟩
    rw [List.mem_filter, hfile, isChosen_iff]
    simp only [and_assoc, and_comm (a := Dir.InReach path names)]

/-- A file in a folder and one beside it, whatever the case of `proto`; the folder is not named. Of the two
names that begin with a dot, one is not UTF-8. -/
theorem inputs_found_sorted :
    let here : Bytes := [Ascii.dot]
    let odd : Bytes := [Ascii.dot, 0xFF] ++ Ascii.word ".proto"
    let hidden := Ascii.word ".x.proto"
    let t := (((((FileTree.atFolder []).addFile [Ascii.word "a", Ascii.word "x.proto"] []).addFile
      [Ascii.word "a.Proto"] []).addFile [odd] []).addFile [hidden] [])
    ∃ found : List (List Bytes),
      (onTree (inputsOf 0 (some 2) here) t).1 = found.map (·.foldl Path.join here) ∧
      [Ascii.word "a", Ascii.word "x.proto"] ∈ found ∧ [Ascii.word "a.Proto"] ∈ found ∧
      [odd] ∈ found ∧ [hidden] ∉ found ∧ [Ascii.word "a"] ∉ found := by
  intro here odd hidden t
  obtain ⟨found, hnamed, -, hmem⟩ := ((inputs_found 0 (some 2) [here] t).2 here).2 t.top (by rfl)
  have hreach : ∀ name, Dir.InReach here [name] := fun name =>
    Dir.inReach_cons.mpr ⟨by simp, Dir.inReach_nil _⟩
  have hbelow : Dir.InReach here [Ascii.word "a", Ascii.word "x.proto"] :=
    Dir.inReach_cons.mpr ⟨fun _ => by decide, Dir.inReach_cons.mpr ⟨by simp, Dir.inReach_nil _⟩⟩
  refine ⟨found, hnamed, (hmem _).mpr ⟨⟨[], by rfl⟩, by simp, by decide, ?_, hbelow⟩,
    (hmem _).mpr ⟨⟨[], by rfl⟩, by simp, by decide, ?_, hreach _⟩,
    (hmem _).mpr ⟨⟨[], by rfl⟩, by simp, by decide, ?_, hreach _⟩, fun h => ?_, fun h => ?_⟩
  · exact ⟨_, rfl, Ascii.word "x", Ascii.word "proto", by decide, by decide, by decide, by decide⟩
  · exact ⟨_, rfl, Ascii.word "a", Ascii.word "Proto", by decide, by decide, by decide, by decide⟩
  · exact ⟨_, rfl, [Ascii.dot, 0xFF], Ascii.word "proto", by decide, by decide, by decide, by decide⟩
  · exact ((hmem _).mp h).2.2.1 hidden (by simp) (by decide) (by decide)
  · obtain ⟨⟨content, hcontent⟩, -⟩ := (hmem _).mp h
    exact absurd hcontent nofun

/-! A folder that is found but cannot be read. -/

/-- The working folder, written with `n` dots more than needed. -/
def Path.dots : Nat → Bytes
  | 0 => [Ascii.dot]
  | n + 1 => Ascii.dot :: Ascii.slash :: dots n

namespace Path

theorem parts_dots (n : Nat) : parts (dots n) = List.replicate (n + 1) [Ascii.dot] := by
  have hdot : Ascii.dot ≠ Ascii.slash := by decide
  induction n with
  | zero => rfl
  | succ n ih => simp [dots, parts, hdot, ih, List.replicate_succ]

theorem length_dots (n : Nat) : (dots n).length = 2 * n + 1 := by
  induction n with
  | zero => rfl
  | succ n ih =>
    rw [dots, List.length_cons, List.length_cons, ih]
    omega

theorem eq_of_mem_dots {n : Nat} {c : UInt8} (h : c ∈ dots n) : c = Ascii.dot ∨ c = Ascii.slash := by
  induction n with
  | zero => exact Or.inl (List.mem_singleton.mp h)
  | succ n ih =>
    rcases List.mem_cons.mp h with rfl | h
    · exact Or.inl rfl
    · rcases List.mem_cons.mp h with rfl | h
      · exact Or.inr rfl
      · exact ih h

theorem head?_dots (n : Nat) : (dots n).head? = some Ascii.dot := by
  cases n <;> rfl

theorem getLast?_dots (n : Nat) : (dots n).getLast? = some Ascii.dot := by
  induction n with
  | zero => rfl
  | succ n ih => rw [dots, List.getLast?_cons_cons, List.getLast?_cons, ih]; rfl

end Path

namespace FileTree
variable {t : FileTree}

theorem follow_dots {l : Location} (h : t.isFolderAt l = true) (n : Nat) :
    t.follow l (List.replicate n [Ascii.dot]) = .ok l := by
  induction n with
  | zero => rfl
  | succ n ih =>
    have hstays : Path.stays [Ascii.dot] = true := by decide
    rw [List.replicate_succ, follow, if_pos h, if_pos hstays]
    exact ih

theorem folder?_dots {folder : Dir Bytes} {n : Nat} (hn : n < 2047)
    (h : t.entry? t.here = some (.folder folder)) : t.folder? (Path.dots n) = some folder := by
  have hzero : (Path.dots n).contains 0 = false := by
    rw [Bool.eq_false_iff]
    intro hmem
    have := Path.eq_of_mem_dots (List.contains_iff_mem.mp hmem)
    revert this
    decide
  have hne : Path.dots n ≠ [] := fun heq => by
    have := Path.head?_dots n
    rw [heq] at this
    exact absurd this nofun
  have hshort : Path.isTooLong (Path.dots n) = false := by
    rw [Path.isTooLong, Path.length_dots, decide_eq_false_iff_not, Path.pathLimit]
    omega
  have hrelative : Path.isAbsolute (Path.dots n) = false := by
    rw [Path.isAbsolute, Path.head?_dots]
    rfl
  have hlocate : t.locate (Path.dots n) = .ok t.here := by
    rw [locate, startOf, hzero, if_neg Bool.false_ne_true, if_neg hne, hshort,
      if_neg Bool.false_ne_true, hrelative, if_neg Bool.false_ne_true, Path.parts_dots]
    exact follow_dots (isFolderAt_iff.mpr ⟨folder, h⟩) (n + 1)
  rw [folder?, find?, hlocate]
  simp only [h]

end FileTree

/-- The folder `dd` is found below the working folder, but under its path of 4096 bytes it cannot be
read; the schema file in it is not named. Another schema file is named although its name begins with a dot,
for that name is not UTF-8. -/
theorem inputs_out_of_reach :
    let path := Path.dots 2046
    let names := [Ascii.word "dd", Ascii.word "a.proto"]
    let text := Ascii.word "message M \x7b int32 a = 5; \x7d"
    let t := (FileTree.atFolder []).addFile names text
    let odd : Bytes := [Ascii.dot, 0xFF] ++ Ascii.word ".proto"
    ((∃ folder content, t.folder? path = some folder ∧ folder.lookup names = some (.file content)) ∧
      isChosen none names = true ∧ onTree (inputs 0 none [path]) t = ([], t)) ∧
    odd.head? = some Ascii.dot ∧
      (onTree (inputs 0 none [[Ascii.dot]]) ((FileTree.atFolder []).addFile [odd] text)).1 =
        [Path.join [Ascii.dot] odd] := by
  intro path names text t odd
  have hfolder : t.folder? path = some t.top := FileTree.folder?_dots (by decide) (by rfl)
  have hlong : Path.isTooLong (Path.join path (Ascii.word "dd")) = true := by
    rw [Path.join, Path.getLast?_dots, if_neg (by decide), Path.isTooLong, List.length_append,
      Path.length_dots]
    decide
  have hsurvey : t.top.survey path = .folder (Ascii.word "dd") .empty .empty := by
    have htop : t.top =
        .folder (Ascii.word "dd") (.file (Ascii.word "a.proto") text .empty) .empty := by rfl
    rw [htop, Dir.survey, if_pos hlong]
    rfl
  have hnamed := (ends_inputsOf_some 0 none hfolder).onTree
  refine ⟨⟨⟨t.top, _, hfolder, by rfl⟩, by decide, ?_⟩, rfl, by decide +kernel⟩
  rw [onTree_inputs, List.flatMap_singleton, hnamed, hsurvey]
  rfl

end FieldTags
