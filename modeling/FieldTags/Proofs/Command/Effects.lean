import FieldTags.Command.Files

/-! What a computation on files held in memory comes to: the value it gives and the tree it leaves. What
was said before makes no difference to either, and only the loop over the files adds to the report. -/
namespace FieldTags

def Line.report? : Line → Option String
  | .report text => some text
  | .note _ => none

/-- The report so far, its first line first. -/
def Session.reports (s : Session) : List String := (s.said.filterMap Line.report?).reverse

namespace InMemory
variable {α β : Type} {s : Session}

/-- On the tree `t` the computation gives `a` and leaves the tree `t'`, whatever was said before; what it
says itself are notes. -/
def Ends (x : InMemory α) (t : FileTree) (a : α) (t' : FileTree) : Prop :=
  ∀ said, ∃ said', x.run ⟨t, said⟩ = (a, ⟨t', said'⟩) ∧
    said'.filterMap Line.report? = said.filterMap Line.report?

section
variable {t t' t'' : FileTree} {a : α} {b : β}

theorem ends_pure (a : α) (t : FileTree) : Ends (pure a) t a t :=
  fun said => ⟨said, run_pure a ⟨t, said⟩, rfl⟩

theorem Ends.bind {x : InMemory α} {f : α → InMemory β} (hx : Ends x t a t')
    (hf : Ends (f a) t' b t'') : Ends (x >>= f) t b t'' := by
  intro said
  obtain ⟨said₁, hrun, hsame⟩ := hx said
  obtain ⟨said₂, hrun', hsame'⟩ := hf said₁
  refine ⟨said₂, ?_, hsame'.trans hsame⟩
  rw [run_bind, hrun]
  exact hrun'

theorem Ends.exists_bind {x : InMemory α} {f : α → InMemory β} (hx : Ends x t a t')
    (hf : ∃ b, Ends (f a) t' b t'') : ∃ b, Ends (x >>= f) t b t'' :=
  hf.imp fun _ => hx.bind

theorem Ends.run {x : InMemory α} (h : Ends x s.tree a t') :
    ∃ s', x.run s = (a, s') ∧ s'.tree = t' ∧ s'.reports = s.reports := by
  obtain ⟨said, hrun, hsame⟩ := h s.said
  exact ⟨_, hrun, rfl, congrArg List.reverse hsame⟩

theorem Ends.eq {x : InMemory α} {s' : Session} (h : Ends x s.tree a t') {a' : α}
    (hrun : x.run s = (a', s')) : a' = a ∧ s'.tree = t' := by
  obtain ⟨s₁, hrun', htree, -⟩ := h.run
  obtain ⟨rfl, rfl⟩ := Prod.mk.inj (hrun.symm.trans hrun')
  exact ⟨rfl, htree⟩

def onTree (x : InMemory α) (t : FileTree) : α × FileTree :=
  ((x.run ⟨t, []⟩).1, (x.run ⟨t, []⟩).2.tree)

theorem Ends.onTree {x : InMemory α} (h : Ends x t a t') : onTree x t = (a, t') := by
  obtain ⟨hout, htree⟩ := h.eq (s := ⟨t, []⟩) rfl
  exact Prod.ext hout htree

theorem exists_run_of_onTree {x : InMemory α} (h : (InMemory.onTree x t).1 = a) :
    ∃ s, x.run ⟨t, []⟩ = (a, s) :=
  ⟨_, Prod.ext h rfl⟩

end

/-! The calls to the host. -/

section
variable {path : Bytes} {content : Bytes} {t t' : FileTree}

theorem ends_read (path : Bytes) (t : FileTree) : Ends (Host.read path) t (t.read path) t :=
  fun said => ⟨said, run_read path ⟨t, said⟩, rfl⟩

theorem ends_isPresent (path : Bytes) (t : FileTree) :
    Ends (Host.isPresent path) t (t.isPresent path) t :=
  fun said => ⟨said, run_isPresent path ⟨t, said⟩, rfl⟩

theorem ends_folder? (path : Bytes) (t : FileTree) :
    Ends (Host.folder? path) t ((t.folder? path).map (·.survey path)) t :=
  fun said => ⟨said, run_folder? path ⟨t, said⟩, rfl⟩

theorem ends_note (n : Note) (t : FileTree) : Ends (Host.say (.note n)) t () t :=
  fun said => ⟨.note n :: said, run_say (.note n) ⟨t, said⟩, rfl⟩

theorem ends_write_ok (h : t.write path content = .ok t') :
    Ends (Host.write path content) t (.ok ()) t' := by
  intro said
  refine ⟨said, ?_, rfl⟩
  rw [run_write, h]

theorem ends_write_error {e : DiskError} (h : t.write path content = .error e) :
    Ends (Host.write path content) t (.error e) t := by
  intro said
  refine ⟨said, ?_, rfl⟩
  rw [run_write, h]

end
end InMemory

open InMemory

/-! Notes and documents. -/

section
variable {verbosity : Nat} {path : Bytes} {content : Bytes} {t t' : FileTree} {e : DiskError}

theorem ends_tell (verbosity : Nat) (n : Note) (t : FileTree) : Ends (tell verbosity n) t () t := by
  rw [tell]
  split
  · exact ends_note n t
  · exact ends_pure () t

theorem ends_tellAll (verbosity : Nat) (ns : List Note) (t : FileTree) :
    Ends (tellAll verbosity ns) t () t := by
  induction ns with
  | nil => exact ends_pure () t
  | cons n ns ih => exact (ends_tell verbosity n t).bind ih

theorem ends_readDocument_error (h : t.read path = .error e) :
    Ends (readDocument verbosity path) t (.error (.fileRead path e)) t := by
  apply (ends_read path t).bind
  rw [h]
  exact ends_pure _ t

theorem ends_readDocument_ok (h : t.read path = .ok content) :
    Ends (readDocument verbosity path) t
      (if Utf8.isValid content then .ok content else .error (.invalidUtf8 path)) t := by
  apply (ends_read path t).bind
  rw [h]
  exact (ends_tell _ _ t).bind (ends_pure _ t)

theorem ends_writeDocument_error (h : t.write path content = .error e) :
    Ends (writeDocument verbosity path content) t (.error (.fileWrite path e)) t :=
  (ends_write_error h).bind (ends_pure _ t)

theorem ends_writeDocument_ok (h : t.write path content = .ok t') :
    Ends (writeDocument verbosity path content) t (.ok ()) t' :=
  (ends_write_ok h).bind ((ends_tell _ _ t').bind (ends_pure _ t'))

end
end FieldTags
