import FieldTags.Text.Ascii
import FieldTags.Text.Utf8
import FieldTags.Text.Word
import FieldTags.Text.Blank
import FieldTags.Text.Run
import FieldTags.Text.Edit
import FieldTags.Text.Control
import FieldTags.Text.Terminal
import FieldTags.Lexical.Mode
import FieldTags.Lexical.Event
import FieldTags.Lexical.Mask
import FieldTags.Log
import FieldTags.Block.Basic
import FieldTags.Block.Brace
import FieldTags.Message.Head
import FieldTags.Message.Blocks
import FieldTags.Field.Options
import FieldTags.Field.Declaration
import FieldTags.Field.Body
import FieldTags.Field.Renumber
import FieldTags.Document.Rewriter
import FieldTags.Document.Pass
import FieldTags.Document.Notes
import FieldTags.Disk.Dir
import FieldTags.Disk.Error
import FieldTags.Disk.Path
import FieldTags.Disk.FileTree
import FieldTags.Disk.Host
import FieldTags.Failure
import FieldTags.Digest.Blake3
import FieldTags.Command.Count
import FieldTags.Command.Arguments
import FieldTags.Command.Inputs
import FieldTags.Command.Files
import FieldTags.Command.Run
import FieldTags.Main
import FieldTags.Proofs.Text.Pieces
import FieldTags.Proofs.Text.Substitution
import FieldTags.Proofs.Text.Overwrite
import FieldTags.Proofs.Text.Characters
import FieldTags.Proofs.Text.Encoding
import FieldTags.Proofs.Lexical.Scan
import FieldTags.Proofs.Lexical.Silent
import FieldTags.Proofs.Lexical.Token
import FieldTags.Proofs.Lexical.Division
import FieldTags.Proofs.Shape.Runs
import FieldTags.Proofs.Shape.Lexical
import FieldTags.Proofs.Message.Heads
import FieldTags.Proofs.Message.Order
import FieldTags.Proofs.Message.Nesting
import FieldTags.Proofs.Message.Forest
import FieldTags.Proofs.Shape.Message
import FieldTags.Proofs.Shape.Declaration
import FieldTags.Proofs.Field.Gaps
import FieldTags.Proofs.Field.Tags
import FieldTags.Proofs.Shape.Field
import FieldTags.Proofs.Document.Claims
import FieldTags.Proofs.Document.Settle
import FieldTags.Proofs.Document.Counting
import FieldTags.Proofs.Document.Renumbering
import FieldTags.Proofs.Document.Sequence
import FieldTags.Proofs.Document.OldTags
import FieldTags.Proofs.Document.Standing
import FieldTags.Proofs.Document.Calls
import FieldTags.Proofs.Lexical.Atoms
import FieldTags.Proofs.Message.Parts
import FieldTags.Proofs.Field.Parts
import FieldTags.Proofs.Document.Parts
import FieldTags.Proofs.Document.Bodies
import FieldTags.Proofs.Document.Change
import FieldTags.Proofs.Lexical.Hidden
import FieldTags.Proofs.Document.Hidden
import FieldTags.Proofs.Text.Stretch
import FieldTags.Proofs.Message.Outermost
import FieldTags.Proofs.Document.Filling
import FieldTags.Proofs.Document.Tracking
import FieldTags.Proofs.Document.Offsets
import FieldTags.Proofs.Field.Place
import FieldTags.Proofs.Shape.Place
import FieldTags.Proofs.Document.Retagging
import FieldTags.Proofs.Field.Reading
import FieldTags.Proofs.Field.Atoms
import FieldTags.Proofs.Document.Rewriting
import FieldTags.Proofs.Schema.Grammar
import FieldTags.Proofs.Schema.Reading
import FieldTags.Proofs.Schema.FieldLine
import FieldTags.Proofs.Schema.Statements
import FieldTags.Proofs.Schema.Openers
import FieldTags.Proofs.Message.Occurrences
import FieldTags.Proofs.Schema.Fields
import FieldTags.Proofs.Schema.Renumbering
import FieldTags.Proofs.Disk.Entries
import FieldTags.Proofs.Disk.Paths
import FieldTags.Proofs.Disk.Writing
import FieldTags.Proofs.Disk.Walk
import FieldTags.Proofs.Command.Effects
import FieldTags.Proofs.Command.Steps
import FieldTags.Proofs.Command.Backup
import FieldTags.Proofs.Command.Contents
import FieldTags.Proofs.Command.Spared
import FieldTags.Proofs.Command.Results
import FieldTags.Proofs.Command.Isolation
import FieldTags.Proofs.Command.Settling
import FieldTags.Proofs.Command.Switches
import FieldTags.Proofs.Command.Checking
import FieldTags.Proofs.Document.Stages
import FieldTags.Proofs.Document.Afresh
import FieldTags.Proofs.Block.Dyck
import FieldTags.Proofs.Lexical.Alike
import FieldTags.Proofs.Message.Alike
import FieldTags.Proofs.Shape.Spelling
import FieldTags.Proofs.Field.Numbering
import FieldTags.Proofs.Document.Structure
import FieldTags.Proofs.Text.Cutting
import FieldTags.Proofs.Document.Places
import FieldTags.Proofs.Document.Seam
import FieldTags.Proofs.Lexical.Stepping
import FieldTags.Proofs.Document.Bounds
import FieldTags.Proofs.Command.Inputs
import FieldTags.Proofs.Command.History
import FieldTags.Proofs.Lexical.Joining
