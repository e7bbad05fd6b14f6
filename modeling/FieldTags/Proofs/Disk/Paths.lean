import FieldTags.Proofs.Disk.Entries
import Mathlib.Tactic.SplitIfs

/-! Paths that name an entry of a folder. Reading and writing through such a path go to the same place,
and a file written anywhere leads no such path astray. -/
namespace FieldTags
namespace Path

theorem parts_of_not_mem {cs : Bytes} (h : Ascii.slash ∉ cs) : parts cs = [cs] := by
  induction cs with
  | nil => rfl
  | cons c cs ih =>
    rw [List.mem_cons, not_or] at h
    rw [parts, if_neg (Ne.symm h.1), ih h.2]

theorem exists_parts_append {suffix : Bytes} (h : Ascii.slash ∉ suffix) (path : Bytes) :
    ∃ before name, parts path = before ++ [name] ∧
      parts (path ++ suffix) = before ++ [name ++ suffix] := by
  induction path with
  | nil => exact ⟨[], [], rfl, parts_of_not_mem h⟩
  | cons c path ih =>
    obtain ⟨before, last, hold, hnew⟩ := ih
    by_cases hc : c = Ascii.slash
    · refine ⟨[] :: before, last, ?_, ?_⟩
      · rw [parts, if_pos hc, hold]
        rfl
      · rw [List.cons_append, parts, if_pos hc, hnew]
        rfl
    · cases before with
      | nil =>
        refine ⟨[], c :: last, ?_, ?_⟩
        · rw [parts, if_neg hc, hold]
          rfl
        · rw [List.cons_append, parts, if_neg hc, hnew]
          rfl
      | cons part before =>
        refine ⟨(c :: part) :: before, last, ?_, ?_⟩
        · rw [parts, if_neg hc, hold]
          rfl
        · rw [List.cons_append, parts, if_neg hc, hnew]
          rfl

theorem exists_parts (path : Bytes) : ∃ before name, parts path = before ++ [name] := by
  obtain ⟨before, name, h, -⟩ := exists_parts_append List.not_mem_nil path
  exact ⟨before, name, h⟩

/-- A part that can only stand for an entry of the folder before it. -/
structure IsName (part : Bytes) : Prop where
  stays : stays part = false
  notUp : part ≠ up
  short : part.length ≤ nameLimit

end Path

theorem exists_ok_of_bind_eq_ok {ε α β : Type} {x : Except ε α} {f : α → Except ε β} {b : β}
    (h : x >>= f = .ok b) : ∃ a, x = .ok a ∧ f a = .ok b := by
  cases x with
  | error e => exact absurd h nofun
  | ok a => exact ⟨a, rfl, h⟩

namespace FileTree
variable {t t' : FileTree} {l k r : Location} {path : Bytes} {content : Bytes}

theorem isFolderAt_iff : t.isFolderAt l = true ↔ ∃ inner, t.entry? l = some (.folder inner) := by
  rw [isFolderAt]
  split
  next inner h => simp [h]
  next h =>
    refine ⟨nofun, fun ⟨inner, heq⟩ => absurd heq (h inner)⟩

theorem isFolderAt_iff_content : t.isFolderAt l = true ↔
    (t.entry? l).map Entry.content? = some none := by
  rw [isFolderAt_iff, Option.map_eq_some_iff]
  constructor
  · rintro ⟨inner, h⟩
    exact ⟨_, h, rfl⟩
  · rintro ⟨e, h, he⟩
    obtain ⟨inner, rfl⟩ := Entry.content?_eq_none_iff.mp he
    exact ⟨inner, h⟩

theorem entry?_eq_file_iff : t.entry? l = some (.file content) ↔
    (t.entry? l).map Entry.content? = some (some content) := by
  rw [Option.map_eq_some_iff]
  constructor
  · exact fun h => ⟨_, h, rfl⟩
  · rintro ⟨e, h, he⟩
    rw [h, Entry.content?_eq_some_iff.mp he]

theorem isFolderAt_dropLast (h : t.isFolderAt l = true) : t.isFolderAt l.dropLast = true := by
  obtain ⟨inner, hinner⟩ := isFolderAt_iff.mp h
  exact isFolderAt_iff.mpr (Dir.exists_lookup_dropLast hinner)

/-- A file can go to the location: its folder is there, and no folder is in its place. -/
structure Takes (t : FileTree) (l : Location) : Prop where
  folder : t.isFolderAt l.dropLast = true
  free : t.isFolderAt l = false

theorem content?_place (h : t.Takes l) (content : Bytes) (k : Location) :
    (FileTree.entry? (t.place l content) k).map Entry.content? =
      if k = l then some (some content) else (t.entry? k).map Entry.content? :=
  Dir.content?_lookup_put content (isFolderAt_iff.mp h.folder)
    (fun inner hinner => by simpa [h.free] using isFolderAt_iff.mpr ⟨inner, hinner⟩) k

theorem entry?_place_self (h : t.Takes l) (content : Bytes) :
    FileTree.entry? (t.place l content) l = some (.file content) := by
  rw [entry?_eq_file_iff, content?_place h, if_pos rfl]

/-- The trees differ at most in the file at one location: in what it holds, or in whether it is there. -/
structure EditedAt (t : FileTree) (l : Location) (t' : FileTree) : Prop where
  here : t'.here = t.here
  before : t.isFolderAt l = false
  after : t'.isFolderAt l = false
  elsewhere : ∀ k, k ≠ l → (t'.entry? k).map Entry.content? = (t.entry? k).map Entry.content?

theorem editedAt_place (h : t.Takes l) (content : Bytes) : t.EditedAt l (t.place l content) where
  here := rfl
  before := h.free
  after := by rw [isFolderAt, entry?_place_self h]
  elsewhere k hk := by rw [content?_place h, if_neg hk]

/-- The trees have the same working folder and the same folders. -/
structure SameFolders (t t' : FileTree) : Prop where
  here : t'.here = t.here
  isFolderAt : ∀ l, t'.isFolderAt l = t.isFolderAt l

theorem SameFolders.symm (h : t.SameFolders t') : t'.SameFolders t :=
  ⟨h.here.symm, fun l => (h.isFolderAt l).symm⟩

theorem EditedAt.sameFolders (h : t.EditedAt l t') : t.SameFolders t' := by
  refine ⟨h.here, fun k => ?_⟩
  by_cases hk : k = l
  · rw [hk, h.before, h.after]
  · rw [Bool.eq_iff_iff, isFolderAt_iff_content, isFolderAt_iff_content, h.elsewhere k hk]

theorem EditedAt.entry?_eq_file_iff (h : t.EditedAt l t') (hk : k ≠ l) :
    t'.entry? k = some (.file content) ↔ t.entry? k = some (.file content) := by
  rw [FileTree.entry?_eq_file_iff, FileTree.entry?_eq_file_iff, h.elsewhere k hk]

theorem isSome_entry?_place (h : t.Takes l) (content : Bytes) (hk : (t.entry? k).isSome = true) :
    (FileTree.entry? (t.place l content) k).isSome = true := by
  rw [← Option.isSome_map, content?_place h]
  split
  next => rfl
  next => rwa [Option.isSome_map]

theorem follow_cons (t : FileTree) (l : Location) (part : Bytes) (parts : List Bytes) :
    t.follow l (part :: parts) = t.follow l [part] >>= fun k => t.follow k parts := by
  simp only [follow]
  split_ifs <;> rfl

theorem follow_append (t : FileTree) (l : Location) (xs ys : List Bytes) :
    t.follow l (xs ++ ys) = t.follow l xs >>= fun k => t.follow k ys := by
  induction xs generalizing l with
  | nil => rfl
  | cons x xs ih =>
    rw [List.cons_append, follow_cons, follow_cons t l x xs]
    cases t.follow l [x] with
    | error e => rfl
    | ok k => exact ih k

theorem follow_singleton_iff {part : Bytes} : t.follow l [part] = .ok r ↔
    t.isFolderAt l = true ∧ (Path.stays part = true ∧ r = l ∨ part = Path.up ∧ r = l.dropLast ∨
      Path.IsName part ∧ (t.entry? (l ++ [part])).isSome = true ∧ r = l ++ [part]) := by
  have hup : Path.stays Path.up = false := by decide
  rw [follow]
  split_ifs with hfolder hstays hdots hlong hthere
  · have hname : ¬ Path.IsName part := fun h => by simp [h.stays] at hstays
    have hdots : part ≠ Path.up := fun h => by simp [h, hup] at hstays
    simp [follow, hfolder, hstays, hname, hdots, @eq_comm _ l r]
  · subst hdots
    have hname : ¬ Path.IsName Path.up := fun h => h.notUp rfl
    simp [follow, hfolder, hup, hname, @eq_comm _ l.dropLast r]
  · have hname : ¬ Path.IsName part := fun h => absurd h.short (Nat.not_le.mpr hlong)
    simp [hstays, hdots, hname]
  · have hname : Path.IsName part := ⟨by simpa using hstays, hdots, Nat.not_lt.mp hlong⟩
    simp [follow, hfolder, hstays, hdots, hname, hthere, @eq_comm _ (l ++ [part]) r]
  · simp [hstays, hdots, hthere]
  · simp [hfolder]

theorem startOf_place (t : FileTree) (l : Location) (content : Bytes) (path : Bytes) :
    (t.place l content).startOf path = t.startOf path := rfl

theorem follow_place (h : t.Takes l) (content : Bytes) {parts : List Bytes}
    (hr : t.follow k parts = .ok r) : (t.place l content).follow k parts = .ok r := by
  induction parts generalizing k with
  | nil => exact hr
  | cons part parts ih =>
    rw [follow_cons] at hr ⊢
    cases hstep : t.follow k [part] with
    | error e => rw [hstep] at hr; exact absurd hr nofun
    | ok next =>
      rw [hstep] at hr
      obtain ⟨hfolder, hcases⟩ := follow_singleton_iff.mp hstep
      have hstep' : (t.place l content).follow k [part] = .ok next := by
        refine follow_singleton_iff.mpr ⟨?_, ?_⟩
        · rw [(editedAt_place h content).sameFolders.isFolderAt, hfolder]
        · exact hcases.imp_right (Or.imp_right fun ⟨hname, hthere, hnext⟩ =>
            ⟨hname, isSome_entry?_place h content hthere, hnext⟩)
      rw [hstep']
      exact ih hr

theorem isFolderAt_of_follow {parts : List Bytes} (h : t.follow k parts = .ok r)
    (hr : t.isFolderAt r = true) : t.isFolderAt k = true := by
  cases parts with
  | nil => rwa [Except.ok.inj h]
  | cons part parts =>
    rw [follow_cons] at h
    obtain ⟨next, hstep, -⟩ := exists_ok_of_bind_eq_ok h
    exact (follow_singleton_iff.mp hstep).1

/-- Only the folders matter on the way to a folder, for every step on such a way leads to one. -/
theorem SameFolders.follow (h : t.SameFolders t') {parts : List Bytes}
    (hr : t.follow k parts = .ok r) (hfolder : t.isFolderAt r = true) :
    t'.follow k parts = .ok r := by
  induction parts generalizing k with
  | nil => exact hr
  | cons part parts ih =>
    rw [follow_cons] at hr ⊢
    obtain ⟨next, hstep, hr⟩ := exists_ok_of_bind_eq_ok hr
    obtain ⟨hk, hcases⟩ := follow_singleton_iff.mp hstep
    have hnext : t'.isFolderAt next = true := by
      rw [h.isFolderAt]
      exact isFolderAt_of_follow hr hfolder
    have hstep' : t'.follow k [part] = .ok next := by
      rw [← h.isFolderAt] at hk
      refine follow_singleton_iff.mpr ⟨hk, ?_⟩
      refine hcases.imp_right (Or.imp_right fun ⟨hname, _, heq⟩ => ⟨hname, ?_, heq⟩)
      obtain ⟨inner, hinner⟩ := isFolderAt_iff.mp hnext
      rw [← heq, hinner]
      rfl
    rw [hstep']
    exact ih hr

/-- The path names the entry `name` of a folder, whether something of this name is there or not. -/
structure Names (t : FileTree) (path : Bytes) (folder : Location) (name : Bytes) : Prop where
  reached : ∃ start before, t.startOf path = .ok start ∧ Path.parts path = before ++ [name] ∧
    t.follow start before = .ok folder
  isFolder : t.isFolderAt folder = true
  isName : Path.IsName name

section
variable {folder : Location} {name : Bytes}

theorem Names.locate (h : t.Names path folder name)
    (hthere : (t.entry? (folder ++ [name])).isSome = true) :
    t.locate path = .ok (folder ++ [name]) := by
  obtain ⟨start, before, hstart, hparts, hfollow⟩ := h.reached
  have hlast : t.follow folder [name] = .ok (folder ++ [name]) :=
    follow_singleton_iff.mpr ⟨h.isFolder, .inr (.inr ⟨h.isName, hthere, rfl⟩)⟩
  rw [FileTree.locate, hstart, hparts]
  change t.follow start (before ++ [name]) = _
  rw [follow_append, hfollow]
  exact hlast

theorem Names.eq_of_locate (h : t.Names path folder name) (hl : t.locate path = .ok l) :
    l = folder ++ [name] := by
  obtain ⟨start, before, hstart, hparts, hfollow⟩ := h.reached
  obtain ⟨start', hstart', hl⟩ := exists_ok_of_bind_eq_ok hl
  obtain rfl : start = start' := Except.ok.inj (hstart.symm.trans hstart')
  rw [hparts, follow_append, hfollow] at hl
  obtain ⟨-, ⟨hstays, -⟩ | ⟨hup, -⟩ | ⟨-, -, heq⟩⟩ := follow_singleton_iff.mp hl
  · rw [h.isName.stays] at hstays
    exact absurd hstays nofun
  · exact absurd hup h.isName.notUp
  · exact heq

theorem SameFolders.names (h : t.SameFolders t') (hnames : t.Names path folder name) :
    t'.Names path folder name := by
  obtain ⟨⟨start, before, hstart, hparts, hfollow⟩, hfolder, hname⟩ := hnames
  refine ⟨⟨start, before, ?_, hparts, h.follow hfollow hfolder⟩, ?_, hname⟩
  · rwa [startOf, h.here]
  · rwa [h.isFolderAt]

theorem names_of_locate (hl : t.locate path = .ok l) (hfree : t.isFolderAt l = false) :
    ∃ folder name, t.Names path folder name ∧ l = folder ++ [name] := by
  obtain ⟨start, hstart, hl⟩ := exists_ok_of_bind_eq_ok hl
  obtain ⟨before, name, hparts⟩ := Path.exists_parts path
  rw [hparts, follow_append] at hl
  obtain ⟨folder, hfollow, hl⟩ := exists_ok_of_bind_eq_ok hl
  obtain ⟨hfolder, ⟨-, rfl⟩ | ⟨-, rfl⟩ | ⟨hname, -, rfl⟩⟩ := follow_singleton_iff.mp hl
  · rw [hfolder] at hfree
    exact absurd hfree nofun
  · rw [isFolderAt_dropLast hfolder] at hfree
    exact absurd hfree nofun
  · exact ⟨folder, name, ⟨⟨start, before, hstart, hparts, hfollow⟩, hfolder, hname⟩, rfl⟩

theorem target_eq {start : Location} {before : List Bytes} (hstart : t.startOf path = .ok start)
    (hparts : Path.parts path = before ++ [name]) (hname : name ≠ []) :
    t.target path = (t.follow start before >>= fun l =>
      if ! t.isFolderAt l then .error .notAFolder
      else if name = [Ascii.dot] ∨ name = Path.up then .error .isAFolder
      else if Path.nameLimit < name.length then .error .nameTooLong
      else if t.isFolderAt (l ++ [name]) then .error .isAFolder
      else .ok (l ++ [name])) := by
  have hcore : ((before ++ [name]).reverse.dropWhile (· == [])).reverse = before ++ [name] := by
    rw [List.reverse_append, List.reverse_singleton, List.singleton_append,
      List.dropWhile_cons_of_neg (by simpa using hname), List.reverse_cons, List.reverse_reverse]
  simp only [target, hstart, hparts, hcore, List.getLast?_concat, List.dropLast_concat,
    Nat.lt_irrefl, or_false]
  rfl

theorem target_ne_ok_of_slash {before : List Bytes} (hparts : Path.parts path = before ++ [[]]) :
    t.target path ≠ .ok l := by
  have hcore : ((before ++ [[]]).reverse.dropWhile (· == [])).reverse.length <
      (before ++ [[]]).length := by
    rw [List.reverse_append, List.reverse_singleton, List.singleton_append,
      List.dropWhile_cons_of_pos (by rfl), List.length_reverse, List.length_append]
    have := (List.dropWhile_sublist (· == []) (l := before.reverse)).length_le
    rw [List.length_reverse] at this
    exact Nat.lt_succ_of_le this
  intro hl
  obtain ⟨start, hstart, hl⟩ := exists_ok_of_bind_eq_ok hl
  simp only [hparts] at hl
  split at hl
  next => exact absurd hl nofun
  next name heq =>
    obtain ⟨folder, hfollow, hl⟩ := exists_ok_of_bind_eq_ok hl
    simp only [hcore, or_true, if_true] at hl
    split at hl <;> exact absurd hl nofun

theorem Names.target (h : t.Names path folder name)
    (hfree : t.isFolderAt (folder ++ [name]) = false) :
    t.target path = .ok (folder ++ [name]) := by
  obtain ⟨start, before, hstart, hparts, hfollow⟩ := h.reached
  have hempty : name ≠ [] := fun heq => absurd (heq ▸ h.isName.stays) (by decide)
  have hdot : name ≠ [Ascii.dot] := fun heq => absurd (heq ▸ h.isName.stays) (by decide)
  rw [target_eq hstart hparts hempty, hfollow]
  change (if _ then _ else _) = _
  rw [h.isFolder, if_neg (by simp), if_neg (by simp [hdot, h.isName.notUp]),
    if_neg (Nat.not_lt.mpr h.isName.short), hfree]
  rfl

theorem names_of_target (hl : t.target path = .ok l) :
    ∃ folder name, t.Names path folder name ∧ t.isFolderAt l = false ∧ l = folder ++ [name] := by
  obtain ⟨start, hstart, -⟩ := exists_ok_of_bind_eq_ok hl
  obtain ⟨before, name, hparts⟩ := Path.exists_parts path
  have hempty : name ≠ [] := fun heq => target_ne_ok_of_slash (heq ▸ hparts) hl
  rw [target_eq hstart hparts hempty] at hl
  obtain ⟨folder, hfollow, hl⟩ := exists_ok_of_bind_eq_ok hl
  split_ifs at hl with hfolder hdots hlong hfree
  obtain ⟨hdot, hup⟩ := not_or.mp hdots
  refine ⟨folder, name, ⟨⟨start, before, hstart, hparts, hfollow⟩, by simpa using hfolder, ?_⟩, ?_⟩
  · exact ⟨by simp [Path.stays, hempty, hdot], hup, Nat.not_lt.mp hlong⟩
  · cases hl
    exact ⟨by simpa using hfree, rfl⟩

theorem SameFolders.target_iff (h : t.SameFolders t') :
    t'.target path = .ok l ↔ t.target path = .ok l := by
  have moves {s s' : FileTree} (h : s.SameFolders s') (hl : s.target path = .ok l) :
      s'.target path = .ok l := by
    obtain ⟨folder, name, hnames, hfree, rfl⟩ := names_of_target hl
    exact (h.names hnames).target ((h.isFolderAt _).trans hfree)
  exact ⟨moves h.symm, moves h⟩

end

end FileTree
end FieldTags
