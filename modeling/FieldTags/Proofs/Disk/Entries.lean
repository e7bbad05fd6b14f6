import FieldTags.Disk.FileTree

/-! What can be read below a folder once a file has been put there: the file itself, and everything
else as before. Only the folders on the way to it are other values than they were. -/
namespace FieldTags
variable {α : Type}

def Entry.content? : Entry α → Option α
  | .file content => some content
  | .folder _ => none

theorem Entry.content?_eq_none_iff {e : Entry α} :
    e.content? = none ↔ ∃ inner, e = .folder inner := by
  cases e <;> simp [content?]

theorem Entry.content?_eq_some_iff {e : Entry α} {content : α} :
    e.content? = some content ↔ e = .file content := by
  cases e <;> simp [content?]

namespace Dir

theorem get?_cons (name : Bytes) (e : Entry α) (rest : Dir α) (n : Bytes) :
    (cons name e rest).get? n = if n = name then some e else rest.get? n := by
  cases e <;> rfl

theorem get?_set (d : Dir α) (name : Bytes) (e : Entry α) (n : Bytes) :
    (d.set name e).get? n = if n = name then some e else d.get? n := by
  induction d with
  | empty => exact get?_cons name e .empty n
  | file k c rest ih | folder k c rest _ ih =>
    simp only [set]
    split
    next => exact get?_cons name e _ n
    next =>
      split
      next heq =>
        subst heq
        rw [get?_cons, get?]
        split <;> rfl
      next hne =>
        rw [get?, get?, ih]
        by_cases hk : n = k
        · rw [if_pos hk, if_pos hk, if_neg fun hname => hne (hname.symm.trans hk)]
        · rw [if_neg hk, if_neg hk]

@[simp] theorem lookup_nil (d : Dir α) : d.lookup [] = some (.folder d) := by
  rw [lookup]

theorem lookup_cons_of_folder {d inner : Dir α} {name : Bytes}
    (h : d.get? name = some (.folder inner)) (names : List Bytes) :
    d.lookup (name :: names) = inner.lookup names := by
  rw [lookup, h]

theorem get?_of_lookup_cons {d inner : Dir α} {name : Bytes} {names : List Bytes}
    (h : d.lookup (name :: names) = some (.folder inner)) :
    ∃ below, d.get? name = some (.folder below) ∧ below.lookup names = some (.folder inner) := by
  rw [lookup] at h
  split at h
  next => exact absurd h nofun
  next below heq => exact ⟨below, heq, h⟩
  next => split at h <;> exact absurd h nofun

theorem lookup_set_of_ne {name n : Bytes} (hn : n ≠ name) (d : Dir α) (e : Entry α)
    (names : List Bytes) : (d.set name e).lookup (n :: names) = d.lookup (n :: names) := by
  rw [lookup, lookup, get?_set, if_neg hn]

theorem lookup_set_file (d : Dir α) (name : Bytes) (content : α) (names : List Bytes) :
    (d.set name (.file content)).lookup (name :: names) =
      if names = [] then some (.file content) else none := by
  rw [lookup, get?_set, if_pos rfl]

theorem lookup_set_folder (d : Dir α) (name : Bytes) (inner : Dir α) (names : List Bytes) :
    (d.set name (.folder inner)).lookup (name :: names) = inner.lookup names := by
  rw [lookup, get?_set, if_pos rfl]

theorem mem_names_of_get? {d : Dir α} {name : Bytes} {e : Entry α} (h : d.get? name = some e) :
    name ∈ d.names := by
  induction d with
  | empty => exact absurd h nofun
  | file k c rest ih | folder k c rest _ ih =>
    rw [get?] at h
    rw [names, List.mem_cons]
    split at h
    next heq => exact .inl heq
    next => exact .inr (ih h)

theorem set_of_get? {d : Dir α} {name : Bytes} {e : Entry α} (hd : d.Ordered)
    (h : d.get? name = some e) : d.set name e = d := by
  -- a name further back does not come before the first one
  have after {k : Bytes} {rest : Dir α} (hlt : ∀ n ∈ rest.names, k < n)
      (hrest : rest.get? name = some e) : ¬ name < k :=
    fun h => List.lt_irrefl name (List.lt_trans h (hlt name (mem_names_of_get? hrest)))
  induction d with
  | empty => exact absurd h nofun
  | file k c rest ih =>
    rw [get?] at h
    split at h
    next heq =>
      subst heq
      cases h
      rw [set, if_neg (List.lt_irrefl name), if_pos rfl]
      rfl
    next hne => rw [set, if_neg (after hd.1 h), if_neg hne, ih hd.2 h]
  | folder k inner rest _ ih =>
    rw [get?] at h
    split at h
    next heq =>
      subst heq
      cases h
      rw [set, if_neg (List.lt_irrefl name), if_pos rfl]
      rfl
    next hne => rw [set, if_neg (after hd.1 h), if_neg hne, ih hd.2.2 h]

theorem exists_lookup_dropLast {d inner : Dir α} {path : List Bytes}
    (h : d.lookup path = some (.folder inner)) :
    ∃ outer, d.lookup path.dropLast = some (.folder outer) := by
  induction path generalizing d with
  | nil => exact ⟨inner, h⟩
  | cons name names ih =>
    cases names with
    | nil => exact ⟨d, lookup_nil d⟩
    | cons next names =>
      obtain ⟨below, hget, hlookup⟩ := get?_of_lookup_cons h
      obtain ⟨outer, houter⟩ := ih hlookup
      exact ⟨outer, (lookup_cons_of_folder hget _).trans houter⟩

theorem lookup_below_eq_none {d : Dir α} {name next : Bytes} {names : List Bytes}
    (h : ∀ inner, d.lookup [name] ≠ some (.folder inner)) :
    d.lookup (name :: next :: names) = none := by
  rw [lookup]
  split
  next => rfl
  next inner heq => exact absurd ((lookup_cons_of_folder heq []).trans (lookup_nil inner)) (h inner)
  next => exact if_neg (List.cons_ne_nil next names)

theorem put_of_lookup {d : Dir α} {path : List Bytes} {e : Entry α} (hd : d.Ordered)
    (h : d.lookup path = some e) : d.put path e = d := by
  fun_induction put d path e with
  | case1 => rfl
  | case2 d name e =>
    rw [lookup] at h
    cases hget : d.get? name with
    | none => simp [hget] at h
    | some there =>
      have hsame : there = e := by cases there <;> simpa [hget] using h
      exact set_of_get? hd (hget.trans (congrArg some hsame))
  | case3 d name names e _ inner hget ih =>
    rw [lookup_cons_of_folder hget] at h
    rw [ih (ordered_of_get? hd hget) h]
    exact set_of_get? hd hget
  | case4 => rfl

theorem content?_lookup_put {d : Dir α} {path : List Bytes} (content : α)
    (hfolder : ∃ inner, d.lookup path.dropLast = some (.folder inner))
    (hfree : ∀ inner, d.lookup path ≠ some (.folder inner)) (k : List Bytes) :
    ((d.put path (.file content)).lookup k).map Entry.content? =
      if k = path then some (some content) else (d.lookup k).map Entry.content? := by
  induction path generalizing d k with
  | nil => exact absurd (lookup_nil d) (hfree d)
  | cons name names ih =>
    cases k with
    | nil => simp [Entry.content?]
    | cons n ns =>
      cases names with
      | nil =>
        rw [put]
        by_cases hn : n = name
        · subst hn
          rw [lookup_set_file]
          cases ns with
          | nil =>
            rw [if_pos rfl, if_pos rfl]
            rfl
          | cons next ns => rw [lookup_below_eq_none hfree, if_neg (by simp), if_neg (by simp)]
        · rw [lookup_set_of_ne hn, if_neg (by simp [hn])]
      | cons next names =>
        obtain ⟨inner, hinner⟩ := hfolder
        obtain ⟨below, hget, hbelow⟩ := get?_of_lookup_cons hinner
        have hput : d.put (name :: next :: names) (.file content) =
            d.set name (.folder (below.put (next :: names) (.file content))) := by
          rw [put, hget]
          simp
        have hdeep := ih (d := below) ⟨inner, hbelow⟩ fun x hx =>
          hfree x ((lookup_cons_of_folder hget _).trans hx)
        rw [hput]
        by_cases hn : n = name
        · subst hn
          rw [lookup_set_folder, hdeep, lookup_cons_of_folder hget]
          simp only [List.cons.injEq, true_and]
        · rw [lookup_set_of_ne hn, if_neg (by simp [hn])]

end Dir
end FieldTags
