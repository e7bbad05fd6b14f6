import FieldTags.Proofs.Disk.Entries

/-! The files below a folder: which they are, in which order they come, and which of them are found from
outside, by paths that can be read. -/
namespace FieldTags
namespace Dir
variable {α : Type} {d : Dir α} {names : List Bytes} {c : α}

theorem exists_cons_of_mem_files (h : (names, c) ∈ d.files) :
    ∃ n ns, names = n :: ns ∧ n ∈ d.names := by
  induction d generalizing names with
  | empty => exact absurd h List.not_mem_nil
  | file name content rest ih =>
    rcases List.mem_cons.mp h with heq | h
    · obtain ⟨rfl, rfl⟩ := Prod.mk.inj heq
      exact ⟨name, [], rfl, List.mem_cons_self⟩
    · obtain ⟨n, ns, heq, hn⟩ := ih h
      exact ⟨n, ns, heq, List.mem_cons_of_mem name hn⟩
  | folder name inner rest _ ih =>
    rcases List.mem_append.mp h with h | h
    · obtain ⟨⟨below, content⟩, -, heq⟩ := List.mem_map.mp h
      obtain ⟨rfl, rfl⟩ := Prod.mk.inj heq
      exact ⟨name, below, rfl, List.mem_cons_self⟩
    · obtain ⟨n, ns, heq, hn⟩ := ih h
      exact ⟨n, ns, heq, List.mem_cons_of_mem name hn⟩

theorem nil_notMem_files (d : Dir α) (c : α) : ([], c) ∉ d.files := by
  intro h
  obtain ⟨n, ns, heq, -⟩ := exists_cons_of_mem_files h
  exact absurd heq nofun

theorem cons_notMem_files {name : Bytes} (h : ∀ n ∈ d.names, name < n) (names : List Bytes) :
    (name :: names, c) ∉ d.files := by
  intro hmem
  obtain ⟨n, ns, heq, hn⟩ := exists_cons_of_mem_files hmem
  obtain ⟨rfl, -⟩ := List.cons.inj heq
  exact List.lt_irrefl _ (h _ hn)

theorem lookup_file (name : Bytes) (content : α) (rest : Dir α) (n : Bytes) (ns : List Bytes) :
    (file name content rest).lookup (n :: ns) =
      if n = name then if ns = [] then some (.file content) else none else rest.lookup (n :: ns) := by
  rw [lookup, lookup, get?]
  by_cases hn : n = name
  · rw [if_pos hn, if_pos hn]
  · rw [if_neg hn, if_neg hn]

theorem lookup_folder (name : Bytes) (inner rest : Dir α) (n : Bytes) (ns : List Bytes) :
    (folder name inner rest).lookup (n :: ns) =
      if n = name then inner.lookup ns else rest.lookup (n :: ns) := by
  rw [lookup, lookup, get?]
  by_cases hn : n = name
  · rw [if_pos hn, if_pos hn]
  · rw [if_neg hn, if_neg hn]

theorem mem_files (hd : d.Ordered) : (names, c) ∈ d.files ↔ d.lookup names = some (.file c) := by
  induction d generalizing names with
  | empty => cases names <;> simp [files, lookup, get?]
  | file name content rest ih =>
    obtain ⟨hfirst, hrest⟩ := hd
    cases names with
    | nil => simp [nil_notMem_files]
    | cons n ns =>
      rw [lookup_file, files, List.mem_cons]
      by_cases hn : n = name
      · subst hn
        simp [cons_notMem_files hfirst ns, @eq_comm _ c]
      · simp [hn, ih hrest]
  | folder name inner rest ihi ih =>
    obtain ⟨hfirst, hinner, hrest⟩ := hd
    cases names with
    | nil => simp [nil_notMem_files]
    | cons n ns =>
      rw [lookup_folder, files, List.mem_append, List.mem_map]
      by_cases hn : n = name
      · subst hn
        simp [cons_notMem_files hfirst ns, ← ihi hinner]
      · simp [hn, ← ih hrest, Ne.symm hn]

theorem pairwise_files (hd : d.Ordered) : d.files.Pairwise fun x y => x.1 < y.1 := by
  have hbehind : ∀ {name : Bytes} {rest : Dir α} (_ : ∀ n ∈ rest.names, name < n)
      (below : List Bytes), ∀ y ∈ rest.files, name :: below < y.1 := by
    intro name rest hfirst below y hy
    obtain ⟨n, ns, heq, hn⟩ := exists_cons_of_mem_files hy
    rw [heq]
    exact List.cons_lt_cons_iff.mpr (Or.inl (hfirst n hn))
  induction d with
  | empty => exact List.Pairwise.nil
  | file name content rest ih =>
    exact List.pairwise_cons.mpr ⟨hbehind hd.1 [], ih hd.2⟩
  | folder name inner rest ihi ih =>
    obtain ⟨hfirst, hinner, hrest⟩ := hd
    refine List.pairwise_append.mpr ⟨?_, ih hrest, ?_⟩
    · refine List.pairwise_map.mpr ((ihi hinner).imp fun hlt => ?_)
      exact List.cons_lt_cons_iff.mpr (Or.inr ⟨rfl, hlt⟩)
    · intro x hx y hy
      obtain ⟨z, -, rfl⟩ := List.mem_map.mp hx
      exact hbehind hfirst z.1 y hy

theorem ordered_of_lookup {inner : Dir α} (hd : d.Ordered)
    (h : d.lookup names = some (.folder inner)) : inner.Ordered := by
  induction names generalizing d with
  | nil =>
    rw [lookup_nil, Option.some.injEq, Entry.folder.injEq] at h
    exact h ▸ hd
  | cons name names ih =>
    obtain ⟨below, hget, hlookup⟩ := get?_of_lookup_cons h
    exact ih (ordered_of_get? hd hget) hlookup

/-! What is found from outside. -/

@[simp] theorem names_survey (path : Bytes) (d : Dir α) : (d.survey path).names = d.names := by
  induction d with
  | empty => rfl
  | file name content rest ih => exact congrArg (name :: ·) ih
  | folder name inner rest _ ih => exact congrArg (name :: ·) ih

theorem ordered_survey (hd : d.Ordered) (path : Bytes) : (d.survey path).Ordered := by
  induction d generalizing path with
  | empty => trivial
  | file name content rest ih => exact ⟨by rw [names_survey]; exact hd.1, ih hd.2 path⟩
  | folder name inner rest ihi ih =>
    obtain ⟨hfirst, hinner, hrest⟩ := hd
    refine ⟨by rw [names_survey]; exact hfirst, ?_, ih hrest path⟩
    split
    · trivial
    · exact ihi hinner _

/-- No folder on the way to an entry, below the one found under `path`, has a path that is too long. -/
def InReach (path : Bytes) (names : List Bytes) : Prop :=
  ∀ front, front ≠ [] → front <+: names → front ≠ names →
    Path.isTooLong (front.foldl Path.join path) = false

theorem inReach_nil (path : Bytes) : InReach path [] := by
  intro front hne hpre _
  exact absurd (List.prefix_nil.mp hpre) hne

theorem inReach_cons {path name : Bytes} :
    InReach path (name :: names) ↔
      (names ≠ [] → Path.isTooLong (Path.join path name) = false) ∧
        InReach (Path.join path name) names := by
  constructor
  · intro h
    refine ⟨fun hne => ?_, fun front hne hpre hproper => ?_⟩
    · exact h [name] (List.cons_ne_nil _ _) ⟨names, rfl⟩ (by simpa using Ne.symm hne)
    · exact h (name :: front) (List.cons_ne_nil _ _) (List.cons_prefix_cons.mpr ⟨rfl, hpre⟩)
        (by simpa using hproper)
  · rintro ⟨hhere, hbelow⟩ front hne hpre hproper
    obtain ⟨n, below, rfl⟩ := List.exists_cons_of_ne_nil hne
    obtain ⟨rfl, htail⟩ := List.cons_prefix_cons.mp hpre
    cases below with
    | nil => exact hhere (by simpa using Ne.symm hproper)
    | cons m ms => exact hbelow (m :: ms) (List.cons_ne_nil _ _) htail (by simpa using hproper)

/-- From outside the files are found whose folders can be read. -/
theorem lookup_survey {path : Bytes} :
    (d.survey path).lookup names = some (.file ()) ↔
      (∃ c, d.lookup names = some (.file c)) ∧ InReach path names := by
  induction d generalizing names path with
  | empty => cases names <;> simp [survey, lookup, get?]
  | file name content rest ih =>
    cases names with
    | nil => simp
    | cons n ns =>
      rw [survey, lookup_file, lookup_file]
      by_cases hn : n = name
      · subst hn
        cases ns with
        | nil => simp [inReach_cons, inReach_nil]
        | cons m ms => simp
      · simp only [if_neg hn, ih]
  | folder name inner rest ihi ih =>
    cases names with
    | nil => simp
    | cons n ns =>
      rw [survey, lookup_folder, lookup_folder]
      by_cases hn : n = name
      · subst hn
        rw [if_pos rfl, if_pos rfl, inReach_cons]
        by_cases hlong : Path.isTooLong (Path.join path n) = true
        · rw [if_pos hlong]
          cases ns with
          | nil => simp
          | cons m ms => simp [lookup, get?, hlong]
        · rw [if_neg hlong, ihi]
          simp [hlong]
      · rw [if_neg hn, if_neg hn, ih]

end Dir
end FieldTags
