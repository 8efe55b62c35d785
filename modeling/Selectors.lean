import Selectors.Config
import Selectors.Corpus
import Selectors.Diagnostic
import Selectors.Fragment
import Selectors.Json.Reader
import Selectors.Proofs.Blocks
import Selectors.Proofs.Checked.Edges
import Selectors.Proofs.Checked.Gap
import Selectors.Proofs.Checked.Nth
import Selectors.Proofs.Checked.Tokens
import Selectors.Proofs.Codec
import Selectors.Proofs.Config.Ascending
import Selectors.Proofs.Config.Records
import Selectors.Proofs.Config.Updates
import Selectors.Proofs.Diagnostics.Grouped
import Selectors.Proofs.Diagnostics.Nesting
import Selectors.Proofs.Diagnostics.Problems
import Selectors.Proofs.Grammar.Accept
import Selectors.Proofs.Grouped
import Selectors.Proofs.Grouping
import Selectors.Proofs.Lexemes
import Selectors.Proofs.NormalForm
import Selectors.Proofs.Nth.Extent
import Selectors.Proofs.Nth.Formula
import Selectors.Proofs.Nth.Spellings
import Selectors.Proofs.Offset
import Selectors.Proofs.Progress.Cursor
import Selectors.Proofs.Progress.List
import Selectors.Proofs.Progress.Step
import Selectors.Proofs.Progress.Text
import Selectors.Proofs.Regrouping
import Selectors.Proofs.Shape.Combinators
import Selectors.Proofs.Shape.Deepest
import Selectors.Proofs.Shape.Invariant
import Selectors.Proofs.Shape.Namespaces
import Selectors.Proofs.Shape.Parsed
import Selectors.Proofs.Shift.List
import Selectors.Proofs.Shift.Step
import Selectors.Proofs.Shift.Tree
import Selectors.Proofs.Slices.Aligned
import Selectors.Proofs.Slices.Arguments
import Selectors.Proofs.Slices.TopLevel
import Selectors.Proofs.Source
import Selectors.Proofs.Specificity.Arguments
import Selectors.Proofs.Specificity.Bounded
import Selectors.Proofs.Specificity.Count
import Selectors.Proofs.StableSort
import Selectors.Proofs.Unclosed
import Selectors.Random
import Selectors.RoundTrip
import Selectors.Specificity
import Selectors.Text.Slice
import Selectors.Token.Cursor
