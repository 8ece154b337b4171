import SmtLowering.Literal.Word
import SmtLowering.Lowering
import SmtLowering.Overflow.Checked
import SmtLowering.Overflow.Conversion
import SmtLowering.Proofs.TypedRuns
import SmtLowering.Proofs.Meaning
import SmtLowering.Proofs.BitSpecs
import SmtLowering.Proofs.Ranges
import SmtLowering.Proofs.Conditions
import SmtLowering.Proofs.Agreement
import SmtLowering.Proofs.SExpr
import SmtLowering.Proofs.Terms
import SmtLowering.Proofs.Symbols
import SmtLowering.Proofs.Spelling
import SmtLowering.Proofs.Reading
import SmtLowering.Proofs.Chains
import SmtLowering.Proofs.Bodies
import SmtLowering.Proofs.Soundness
import SmtLowering.Proofs.FoldedText
import SmtLowering.Proofs.Declarations
import SmtLowering.Proofs.SortedRuns
import SmtLowering.Proofs.Relabelling
import SmtLowering.Proofs.Isolation
import SmtLowering.Proofs.Redefinitions
import SmtLowering.Proofs.LiteralChecks
import SmtLowering.Proofs.CheckedArithmetic
import SmtLowering.Proofs.Captures
import SmtLowering.Proofs.Independence
import SmtLowering.Proofs.Choices
import SmtLowering.Proofs.Refusals
import SmtLowering.Proofs.SelfCalls
import SmtLowering.Proofs.FloatComparisons
import SmtLowering.Proofs.Verdicts
import SmtLowering.Proofs.Repetition
import SmtLowering.Proofs.SharedText
import SmtLowering.Proofs.Snapshots
import SmtLowering.Proofs.Constants
import SmtLowering.Proofs.FloatForms
import SmtLowering.Proofs.Labels
import SmtLowering.Proofs.Enactment
import SmtLowering.Proofs.Reapplications
import SmtLowering.Proofs.Shadowing
