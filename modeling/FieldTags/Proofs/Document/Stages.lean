import FieldTags.Document.Pass

/-! A pass stage by stage. A stage is what a pass carries from one block to the next, and the rest of the
pass depends on nothing else. -/
namespace FieldTags
variable {σ : Type}

/-- Where the blocks lie once the body of `edited` went from `before` to `after` bytes. -/
def Offsets.place (offsets : Offsets) (edited : Block) (before after : Nat)
    (place : Block → Block) : Block → Block :=
  match offsets with
  | .tracked => edited.follow before after ∘ place
  | .fixed => place

/-- Where the blocks of the text before the pass lie now, the state of the rewriter, and the text. -/
structure Stage (σ : Type) where
  place : Block → Block
  state : σ
  text : Bytes

namespace Stage
variable (offsets : Offsets) (rewriter : Rewriter σ)

def step (g : Stage σ) (b : Block) : Step :=
  match g.text.slice? (g.place b).bodyStart (g.place b).rbrace with
  | none => .skipped (g.place b)
  | some body => .handled (g.place b) body (rewriter g.state body).1

def next (g : Stage σ) (b : Block) : Stage σ :=
  match g.text.slice? (g.place b).bodyStart (g.place b).rbrace with
  | none => g
  | some body =>
    let answer := (rewriter g.state body).1
    { place := offsets.place (g.place b) body.length answer.text.length g.place
      state := (rewriter g.state body).2
      text := g.text.splice (g.place b).bodyStart (g.place b).rbrace answer.text }

def pass (g : Stage σ) (bs : List Block) : Outcome :=
  let final := passFrom offsets rewriter g.place g.state g.text bs
  ⟨final.1, final.2⟩

variable {offsets rewriter}

theorem pass_cons (g : Stage σ) (b : Block) (bs : List Block) :
    g.pass offsets rewriter (b :: bs) =
      let later := (g.next offsets rewriter b).pass offsets rewriter bs
      ⟨later.text, g.step rewriter b :: later.steps⟩ := by
  rw [pass, passFrom, next, step]
  cases g.text.slice? (g.place b).bodyStart (g.place b).rbrace with
  | none => rfl
  | some body => rfl

theorem pass_append (g : Stage σ) (done todo : List Block) :
    g.pass offsets rewriter (done ++ todo) =
      let later := (done.foldl (next offsets rewriter) g).pass offsets rewriter todo
      ⟨later.text, (g.pass offsets rewriter done).steps ++ later.steps⟩ := by
  induction done generalizing g with
  | nil => rfl
  | cons b done ih =>
    rw [List.cons_append, pass_cons, pass_cons, ih]
    rfl

end Stage
end FieldTags
