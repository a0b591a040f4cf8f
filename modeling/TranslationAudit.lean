import TranslationAudit.Main
import TranslationAudit.Proofs.Markup.Entity
import TranslationAudit.Proofs.Markup.Name
import TranslationAudit.Proofs.Markup.Tag
import TranslationAudit.Proofs.Markup.Reading
import TranslationAudit.Proofs.Markup.Block
import TranslationAudit.Proofs.Text.Ascii
import TranslationAudit.Proofs.Text.Blank
import TranslationAudit.Proofs.Text.NaturalOrder
import TranslationAudit.Proofs.Markup.Canonical
import TranslationAudit.Proofs.Markup.Sound
import TranslationAudit.Proofs.Message.PluralForm
import TranslationAudit.Proofs.Catalog.Part
import TranslationAudit.Proofs.Catalog.Layout
import TranslationAudit.Proofs.Collection.Dict
import TranslationAudit.Proofs.Collection.SortedMap
import TranslationAudit.Proofs.Catalog.Sound
import TranslationAudit.Proofs.Catalog.Unit
import TranslationAudit.Proofs.Catalog.Group
import TranslationAudit.Proofs.Catalog.Body
import TranslationAudit.Proofs.Catalog.RoundTrip
import TranslationAudit.Proofs.Catalog.Matching
import TranslationAudit.Proofs.FileTree
import TranslationAudit.Proofs.Catalog.Sorted
import TranslationAudit.Proofs.Catalog.Format
import TranslationAudit.Proofs.Catalog.Edit
import TranslationAudit.Proofs.Catalog.Kept
import TranslationAudit.Proofs.Catalog.Rewrite
import TranslationAudit.Proofs.Catalog.Index
import TranslationAudit.Proofs.Catalog.Concrete
import TranslationAudit.Proofs.Sweep
import TranslationAudit.Proofs.Catalog.Reread
import TranslationAudit.Proofs.Catalog.Insert
import TranslationAudit.Proofs.Catalog.Files
import TranslationAudit.Proofs.Reconcile
import TranslationAudit.Proofs.Update
import TranslationAudit.Proofs.Catalog.Remove
import TranslationAudit.Proofs.Deletion
import TranslationAudit.Proofs.Catalog.Pool
import TranslationAudit.Proofs.Catalog.Selection
import TranslationAudit.Proofs.Path
import TranslationAudit.Proofs.Catalog.Location
import TranslationAudit.Proofs.Catalog.Filter
import TranslationAudit.Proofs.Catalog.Union
import TranslationAudit.Proofs.Project.Discovery
import TranslationAudit.Proofs.Narrowing
import TranslationAudit.Proofs.Collect.Fusion
import TranslationAudit.Proofs.Path.Parent
import TranslationAudit.Proofs.FileTree.Place
import TranslationAudit.Proofs.FileTree.Save
import TranslationAudit.Proofs.Catalog.Visit
import TranslationAudit.Proofs.Catalog.VisitAll
import TranslationAudit.Proofs.Catalog.Rehearsal
import TranslationAudit.Proofs.Batch
import TranslationAudit.Proofs.Batch.Named
import TranslationAudit.Proofs.Repetition
import TranslationAudit.Proofs.Independence
import TranslationAudit.Proofs.DryRun
import TranslationAudit.Proofs.Text.Strip
import TranslationAudit.Proofs.Path.Segment
import TranslationAudit.Proofs.Message.Resolve
import TranslationAudit.Proofs.Catalog.Search
import TranslationAudit.Proofs.Catalog.NewPath
import TranslationAudit.Proofs.Collect.Argument
import TranslationAudit.Proofs.Collect.Chain
import TranslationAudit.Proofs.Collect.KeyLine
import TranslationAudit.Proofs.Collect.NodeType
import TranslationAudit.Proofs.Collect.Php.Reading
import TranslationAudit.Proofs.Collect.Php.Order
import TranslationAudit.Proofs.Collect.Order
import TranslationAudit.Proofs.Message.ReferenceIndex
import TranslationAudit.Proofs.Completeness
import TranslationAudit.Proofs.Catalog.Splice
import TranslationAudit.Proofs.Catalog.Consistent
import TranslationAudit.Proofs.Catalog.Insertion
import TranslationAudit.Proofs.Catalog.ConfiguredPath
import TranslationAudit.Proofs.Catalog.Lookup
import TranslationAudit.Proofs.Catalog.Removal
import TranslationAudit.Proofs.Catalog.Arrangement
import TranslationAudit.Proofs.Catalog.NewUnit
import TranslationAudit.Proofs.Markup.Rewriting
import TranslationAudit.Proofs.Collect.Quoting
import TranslationAudit.Proofs.Collect.Literal
import TranslationAudit.Proofs.Catalog.Translations
import TranslationAudit.Proofs.Text.Slice
import TranslationAudit.Proofs.Collect.Fusion.Slices
import TranslationAudit.Proofs.Collect.Fusion.Rounds
import TranslationAudit.Proofs.Collect.Fusion.Passes
import TranslationAudit.Proofs.Collect.Fusion.Total
import TranslationAudit.Proofs.Collect.Fusion.Sites
import TranslationAudit.Proofs.Collect.PlaceholderName
import TranslationAudit.Proofs.Collect.NodeType.Slices
import TranslationAudit.Proofs.Message.Placeholder
import TranslationAudit.Proofs.Text.NaturalNumber
import TranslationAudit.Proofs.Locale
import TranslationAudit.Proofs.Catalog.Inheritance
import TranslationAudit.Proofs.Collect.NodeType.Blocks
import TranslationAudit.Proofs.Collect.NodeType.Comment
import TranslationAudit.Proofs.Message.Spelling
import TranslationAudit.Proofs.Catalog.Registration
import TranslationAudit.Translation.Checked
import TranslationAudit.Proofs.Translation.Context
import TranslationAudit.Proofs.Translation.Delivery
import TranslationAudit.Proofs.Collect.Php.Literal
