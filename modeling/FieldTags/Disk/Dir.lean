import FieldTags.Text.Ascii

/-! Folders as trees of named files and folders. A name is any bytes. The entries of a folder are written one after the
other, so that a folder and the folders in it are one inductive type. -/
namespace FieldTags

inductive Dir (α : Type) where
  | empty
  | file (name : Bytes) (content : α) (rest : Dir α)
  | folder (name : Bytes) (inner rest : Dir α)
  deriving Repr

inductive Entry (α : Type) where
  | file (content : α)
  | folder (inner : Dir α)
  deriving Repr

namespace Dir
variable {α : Type}

def cons (name : Bytes) (e : Entry α) (rest : Dir α) : Dir α :=
  match e with
  | .file content => .file name content rest
  | .folder inner => .folder name inner rest

def names : Dir α → List Bytes
  | .empty => []
  | .file name _ rest => name :: rest.names
  | .folder name _ rest => name :: rest.names

def get? (d : Dir α) (name : Bytes) : Option (Entry α) :=
  match d with
  | .empty => none
  | .file n content rest => if name = n then some (.file content) else rest.get? name
  | .folder n inner rest => if name = n then some (.folder inner) else rest.get? name

/-- Writes an entry at its place in the order of names, over the one of the same name. -/
def set (d : Dir α) (name : Bytes) (e : Entry α) : Dir α :=
  match d with
  | .empty => cons name e .empty
  | .file n content rest =>
    if name < n then cons name e (.file n content rest)
    else if name = n then cons name e rest
    else .file n content (rest.set name e)
  | .folder n inner rest =>
    if name < n then cons name e (.folder n inner rest)
    else if name = n then cons name e rest
    else .folder n inner (rest.set name e)

/-- The entry that a list of names leads to; the empty list leads to the folder itself. -/
def lookup : Dir α → List Bytes → Option (Entry α)
  | d, [] => some (.folder d)
  | d, name :: names =>
    match d.get? name with
    | none => none
    | some (.folder inner) => inner.lookup names
    | some (.file content) => if names = [] then some (.file content) else none

/-- Writes an entry where the names lead to, if all folders on the way are there. -/
def put : Dir α → List Bytes → Entry α → Dir α
  | d, [], _ => d
  | d, [name], e => d.set name e
  | d, name :: names, e =>
    match d.get? name with
    | some (.folder inner) => d.set name (.folder (inner.put names e))
    | _ => d

def makeFolders : Dir α → List Bytes → Dir α
  | d, [] => d
  | d, name :: names =>
    match d.get? name with
    | none => d.set name (.folder (empty.makeFolders names))
    | some (.folder inner) => d.set name (.folder (inner.makeFolders names))
    | some (.file _) => d

def files : Dir α → List (List Bytes × α)
  | .empty => []
  | .file name content rest => ([name], content) :: rest.files
  | .folder name inner rest => inner.files.map (fun (path, c) => (name :: path, c)) ++ rest.files

def Ordered : Dir α → Prop
  | .empty => True
  | .file name _ rest => (∀ n ∈ rest.names, name < n) ∧ rest.Ordered
  | .folder name inner rest => (∀ n ∈ rest.names, name < n) ∧ inner.Ordered ∧ rest.Ordered

end Dir

def Entry.Ordered {α : Type} : Entry α → Prop
  | .file _ => True
  | .folder inner => inner.Ordered

namespace Dir
variable {α : Type}

theorem names_cons (name : Bytes) (e : Entry α) (rest : Dir α) :
    (cons name e rest).names = name :: rest.names := by
  cases e <;> rfl

theorem mem_names_set {d : Dir α} {name n : Bytes} {e : Entry α} (h : n ∈ (d.set name e).names) :
    n = name ∨ n ∈ d.names := by
  induction d with
  | empty => simpa [set, names_cons, names] using h
  | file k c rest ih | folder k c rest _ ih =>
    simp only [set] at h
    split at h
    · simpa [names_cons, names] using h
    · split at h
      · simp only [names_cons, List.mem_cons] at h
        simp only [names, List.mem_cons]
        exact h.imp_right .inr
      · simp only [names, List.mem_cons] at h ⊢
        rcases h with h | h
        · exact .inr (.inl h)
        · exact (ih h).imp_right .inr

theorem ordered_cons {name : Bytes} {e : Entry α} {rest : Dir α} (he : e.Ordered)
    (hr : rest.Ordered) (h : ∀ n ∈ rest.names, name < n) : (cons name e rest).Ordered := by
  cases e with
  | file c => exact ⟨h, hr⟩
  | folder inner => exact ⟨h, he, hr⟩

theorem ordered_set {d : Dir α} {name : Bytes} {e : Entry α} (hd : d.Ordered) (he : e.Ordered) :
    (d.set name e).Ordered := by
  have after {k : Bytes} {rest : Dir α} (h : ∀ n ∈ rest.names, k < n) (h₁ : ¬name < k)
      (h₂ : ¬name = k) : ∀ n ∈ (rest.set name e).names, k < n := by
    intro n hn
    rcases mem_names_set hn with rfl | hn
    · exact Std.lt_of_le_of_ne (List.not_lt.mp h₁) (Ne.symm h₂)
    · exact h n hn
  have before {k : Bytes} {rest : Dir α} (h : ∀ n ∈ rest.names, k < n) (h₁ : name < k) :
      ∀ n ∈ k :: rest.names, name < n := by
    intro n hn
    rcases List.mem_cons.mp hn with rfl | hn
    · exact h₁
    · exact List.lt_trans h₁ (h n hn)
  induction d with
  | empty => exact ordered_cons he hd (by simp [names])
  | file k c rest ih =>
    simp only [set]
    split
    next h₁ => exact ordered_cons he hd (before hd.1 h₁)
    next h₁ =>
      split
      next h₂ => exact ordered_cons he hd.2 (h₂ ▸ hd.1)
      next h₂ => exact ⟨after hd.1 h₁ h₂, ih hd.2⟩
  | folder k inner rest _ ih =>
    simp only [set]
    split
    next h₁ => exact ordered_cons he hd (before hd.1 h₁)
    next h₁ =>
      split
      next h₂ => exact ordered_cons he hd.2.2 (h₂ ▸ hd.1)
      next h₂ => exact ⟨after hd.1 h₁ h₂, hd.2.1, ih hd.2.2⟩

theorem ordered_of_get? {d : Dir α} {name : Bytes} {e : Entry α} (hd : d.Ordered)
    (h : d.get? name = some e) : e.Ordered := by
  induction d with
  | empty => simp [get?] at h
  | file k c rest ih =>
    simp only [get?] at h
    split at h
    · cases h; trivial
    · exact ih hd.2 h
  | folder k inner rest _ ih =>
    simp only [get?] at h
    split at h
    · cases h; exact hd.2.1
    · exact ih hd.2.2 h

theorem ordered_put {d : Dir α} {path : List Bytes} {e : Entry α} (hd : d.Ordered)
    (he : e.Ordered) : (d.put path e).Ordered := by
  fun_induction put d path e with
  | case1 => exact hd
  | case2 => exact ordered_set hd he
  | case3 d name names e _ inner h ih =>
    exact ordered_set hd (ih (ordered_of_get? hd h) he)
  | case4 => exact hd

theorem ordered_makeFolders {d : Dir α} {path : List Bytes} (hd : d.Ordered) :
    (d.makeFolders path).Ordered := by
  fun_induction makeFolders d path with
  | case1 => exact hd
  | case2 d name names h ih => exact ordered_set hd (ih trivial)
  | case3 d name names inner h ih => exact ordered_set hd (ih (ordered_of_get? hd h))
  | case4 => exact hd

end Dir
end FieldTags
