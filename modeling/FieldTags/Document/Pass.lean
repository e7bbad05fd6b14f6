import FieldTags.Document.Rewriter
import FieldTags.Text.Utf8

/-! A pass over a document: each message body is rewritten in place, the inner ones first, so that
an outer body is handed to the rewriter with its inner ones already rewritten. -/
namespace FieldTags

/-- Whether the braces of the enclosing blocks follow an edit that changes a body's length, or stay
where they stood in the text before the pass. -/
inductive Offsets where
  | tracked
  | fixed
  deriving DecidableEq, Repr

/-- One block of a pass, with the offsets at which it was looked for. -/
inductive Step where
  | skipped (b : Block)
  | handled (b : Block) (body : Bytes) (answer : Rewrite)
  deriving DecidableEq, Repr

namespace Step

def body? : Step → Option Bytes
  | .skipped _ => none
  | .handled _ body _ => some body

def rewritten : Step → Bool
  | .skipped _ => false
  | .handled _ body answer => answer.text != body

def fields : Step → UInt64
  | .skipped _ => 0
  | .handled _ _ answer => answer.fields

end Step

/-- Where the block `b` lies after the body of `edited` went from `before` to `after` bytes. A
closing brace cannot fall below offset 0. -/
def Block.follow (edited : Block) (before after : Nat) (b : Block) : Block :=
  if edited.rbrace < b.rbrace then ⟨b.lbrace, b.rbrace + after - before⟩ else b

/-- Handles the blocks in turn; `place` tells where a block of the text before the pass lies now. -/
def passFrom {σ : Type} (offsets : Offsets) (rewriter : Rewriter σ) (place : Block → Block)
    (state : σ) (t : Bytes) : List Block → Bytes × List Step
  | [] => (t, [])
  | b :: bs =>
    let b := place b
    match t.slice? b.bodyStart b.rbrace with
    | none =>
      let later := passFrom offsets rewriter place state t bs
      (later.1, .skipped b :: later.2)
    | some body =>
      let answer := (rewriter state body).1
      let place :=
        match offsets with
        | .tracked => b.follow body.length answer.text.length ∘ place
        | .fixed => place
      let later := passFrom offsets rewriter place (rewriter state body).2
        (t.splice b.bodyStart b.rbrace answer.text) bs
      (later.1, .handled b body answer :: later.2)

/-- The text after a pass and the steps that led to it, one per message block. -/
structure Outcome where
  text : Bytes
  steps : List Step
  deriving DecidableEq, Repr

namespace Outcome

def messages (o : Outcome) : Nat := o.steps.length

def rewritten (o : Outcome) : Nat := o.steps.countP Step.rewritten

/-- The sum of the counts that the rewriter answered. It is one of 64 bits as they are, so counts that
together reach `2 ^ 64` go past the end and start again at 0. -/
def fields (o : Outcome) : UInt64 := o.steps.foldl (fun total s => total + s.fields) 0

def skipped (o : Outcome) : Nat := o.steps.countP (·.body?.isNone)

def changed (o : Outcome) : Bool := 0 < o.rewritten

def bodies (o : Outcome) : List Bytes := o.steps.filterMap Step.body?

end Outcome

def rewriteMessages {σ : Type} (offsets : Offsets) (rewriter : Rewriter σ) (state : σ) (t : Bytes) :
    Outcome :=
  let final := passFrom offsets rewriter id state t (messageBlocks t).reverse
  ⟨final.1, final.2⟩

def renumberDocument (offsets : Offsets) (t : Bytes) : Outcome :=
  rewriteMessages offsets (.pure renumber) () t

/-- Renumbers once for each entry, every pass taking the text that the one before it left. -/
def renumberPasses : List Offsets → Bytes → List Outcome
  | [], _ => []
  | offsets :: rest, t =>
    let outcome := renumberDocument offsets t
    outcome :: renumberPasses rest outcome.text

end FieldTags
