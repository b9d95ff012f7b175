import TermGrouping.Expr.Grouping
import TermGrouping.Expr.Normal
import TermGrouping.Grammar
import TermGrouping.Interpretation
import TermGrouping.Lexicon
import TermGrouping.Tightening
import TermGrouping.Worksheet
import TermGrouping.Proofs.Parsing.Completeness
import TermGrouping.Proofs.Parsing.Formula
import TermGrouping.Proofs.Bundles
import TermGrouping.Proofs.Collected
import TermGrouping.Proofs.Meaning.Flattening
import TermGrouping.Proofs.Meaning.Collecting
import TermGrouping.Proofs.Writing.Scanning
import TermGrouping.Proofs.Writing.Rereading
import TermGrouping.Proofs.Writing.Regrouping
import TermGrouping.Proofs.Writing.Constants
import TermGrouping.Proofs.Writing.Grouping
import TermGrouping.Proofs.Writing.Readable
import TermGrouping.Proofs.RoundTrip.Trace
import TermGrouping.Proofs.RoundTrip.Merging
import TermGrouping.Proofs.RoundTrip.Spacing
import TermGrouping.Proofs.RoundTrip.Misreading
import TermGrouping.Proofs.RoundTrip.Joints
import TermGrouping.Proofs.RoundTrip.Coefficients
import TermGrouping.Proofs.RoundTrip.Legible
import TermGrouping.Proofs.RoundTrip.Formulas
import TermGrouping.Proofs.Collecting.Division
import TermGrouping.Proofs.Collecting.Nodes
import TermGrouping.Proofs.Collecting.Gathered
import TermGrouping.Proofs.Collecting.Repetition
import TermGrouping.Proofs.Collecting.Reflattened
import TermGrouping.Proofs.Parsing.Lexicon
import TermGrouping.Proofs.Parsing.Grammar
import TermGrouping.Proofs.Leaves.Tips
import TermGrouping.Proofs.Flattening.Fixpoint
import TermGrouping.Proofs.Flattening.Regrouped
import TermGrouping.Proofs.Leaves.Conservation
import TermGrouping.Proofs.Slashes.Unjoined
import TermGrouping.Proofs.Slashes.Loosened
import TermGrouping.Proofs.Slashes.Outlines
import TermGrouping.Proofs.Slashes.Tightening
import TermGrouping.Proofs.Collecting.Sorting
import TermGrouping.Proofs.Collecting.Refusals
import TermGrouping.Proofs.Steps.Reachable
import TermGrouping.Proofs.Collecting.Rearranged
import TermGrouping.Proofs.Meaning.LikeTerms
import TermGrouping.Proofs.Parsing.Beginnings
import TermGrouping.Proofs.Parsing.Continuations
import TermGrouping.Proofs.Parsing.Denominators
import TermGrouping.Proofs.Parsing.Replacement
import TermGrouping.Proofs.Parsing.Respacing
import TermGrouping.Proofs.Parsing.Failures
import TermGrouping.Proofs.Collecting.Operations
import TermGrouping.Proofs.Collecting.Notes
