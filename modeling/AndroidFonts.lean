import AndroidFonts.Command.Invocation
import AndroidFonts.Command.Options
import AndroidFonts.Command.Report
import AndroidFonts.Command.Run
import AndroidFonts.Command.Transcript
import AndroidFonts.Descriptor.Basic
import AndroidFonts.Descriptor.Json
import AndroidFonts.Descriptor.Xml
import AndroidFonts.Diff.Hunk
import AndroidFonts.Diff.Script
import AndroidFonts.Diff.Shortest
import AndroidFonts.Disk
import AndroidFonts.Font.Argument
import AndroidFonts.Font.Family
import AndroidFonts.Font.Name
import AndroidFonts.Font.Weight
import AndroidFonts.Link.Linker
import AndroidFonts.Link.Outcome
import AndroidFonts.Link.Patching
import AndroidFonts.Main
import AndroidFonts.Pattern.Basic
import AndroidFonts.Pattern.Brackets
import AndroidFonts.Pattern.Cache
import AndroidFonts.Pattern.Escape
import AndroidFonts.Pattern.Notation
import AndroidFonts.Pattern.Property
import AndroidFonts.Pattern.Syntax
import AndroidFonts.Plan.Basic
import AndroidFonts.Plan.Load
import AndroidFonts.Plan.Toml
import AndroidFonts.Project.Guard
import AndroidFonts.Project.Layout
import AndroidFonts.Proofs.Descriptor.Layouts
import AndroidFonts.Proofs.Descriptor.Merge
import AndroidFonts.Proofs.Descriptor.Order
import AndroidFonts.Proofs.Descriptor.RoundTrip
import AndroidFonts.Proofs.Descriptor.Soundness
import AndroidFonts.Proofs.Font.Argument
import AndroidFonts.Proofs.Font.Name
import AndroidFonts.Proofs.Font.Words
import AndroidFonts.Proofs.Link.Abort
import AndroidFonts.Proofs.Link.Block
import AndroidFonts.Proofs.Link.Confinement
import AndroidFonts.Proofs.Link.Descriptors
import AndroidFonts.Proofs.Link.DryRun
import AndroidFonts.Proofs.Link.Isolation
import AndroidFonts.Proofs.Link.Modes
import AndroidFonts.Proofs.Link.Rehearsal
import AndroidFonts.Proofs.Link.Relinking
import AndroidFonts.Proofs.Link.Reordering
import AndroidFonts.Proofs.Link.Sparing
import AndroidFonts.Proofs.Link.Steps
import AndroidFonts.Proofs.Link.Unlinking
import AndroidFonts.Proofs.Pattern.Caching
import AndroidFonts.Proofs.Pattern.Insertion
import AndroidFonts.Proofs.Pattern.Skipping
import AndroidFonts.Proofs.Pattern.Taking
import AndroidFonts.Proofs.Plan.Validity
import AndroidFonts.Proofs.Project.Acceptance
import AndroidFonts.Proofs.Project.BuildOutput
import AndroidFonts.Proofs.Project.Lookup
import AndroidFonts.Proofs.Project.Sources
import AndroidFonts.Proofs.Project.Stability
import AndroidFonts.Proofs.Source.Anchors
import AndroidFonts.Proofs.Source.Braces
import AndroidFonts.Proofs.Source.Declarations
import AndroidFonts.Proofs.Source.Delimiters
import AndroidFonts.Proofs.Source.Heads
import AndroidFonts.Proofs.Source.Importing
import AndroidFonts.Proofs.Source.Insertion
import AndroidFonts.Proofs.Source.Keeping
import AndroidFonts.Proofs.Source.LineBreaks
import AndroidFonts.Proofs.Source.Moving
import AndroidFonts.Proofs.Source.Names
import AndroidFonts.Proofs.Source.Nesting
import AndroidFonts.Proofs.Source.Offsets
import AndroidFonts.Proofs.Source.Removal
import AndroidFonts.Proofs.Text.Boundary
import AndroidFonts.Proofs.Text.Bytes
import AndroidFonts.Proofs.Text.Numeral
import AndroidFonts.Proofs.Text.Order
import AndroidFonts.Proofs.Tree.Effect
import AndroidFonts.Proofs.Tree.Following
import AndroidFonts.Proofs.Tree.Making
import AndroidFonts.Proofs.Tree.Reading
import AndroidFonts.Proofs.Tree.Replacing
import AndroidFonts.Proofs.Tree.Shape
import AndroidFonts.Proofs.Tree.Spelling
import AndroidFonts.Proofs.Tree.Walk
import AndroidFonts.Proofs.Xml.Grammar
import AndroidFonts.Proofs.Xml.Reading
import AndroidFonts.Proofs.Xml.Trees
import AndroidFonts.Source.Body
import AndroidFonts.Source.Dialect
import AndroidFonts.Source.Error
import AndroidFonts.Source.Operation
import AndroidFonts.Source.Patch
import AndroidFonts.Text.Control
import AndroidFonts.Text.Lines
import AndroidFonts.Text.Numeral
import AndroidFonts.Text.Offset
import AndroidFonts.Text.Search
import AndroidFonts.Toml.Document
import AndroidFonts.Toml.Scalar
import AndroidFonts.Toml.Value
import AndroidFonts.Tree.Basic
import AndroidFonts.Tree.Edit
import AndroidFonts.Tree.Error
import AndroidFonts.Tree.Path
import AndroidFonts.Tree.Resolve
import AndroidFonts.Tree.Write
import AndroidFonts.Unicode.Alphabetic
import AndroidFonts.Unicode.Blank
import AndroidFonts.Unicode.LetterCase
import AndroidFonts.Unicode.Mark
import AndroidFonts.Unicode.Number
import AndroidFonts.Unicode.Ranges
import AndroidFonts.Unicode.Word
import AndroidFonts.Xml.Element
import AndroidFonts.Xml.Token
