import Abacus.Arena.Basic
import Abacus.Arena.Listing
import Abacus.Arena.Value
import Abacus.Arena.Verify
import Abacus.Assembly.Constant
import Abacus.Assembly.Emission
import Abacus.Assembly.Machine
import Abacus.Assembly.Module
import Abacus.Assembly.Naming
import Abacus.Assembly.Reading
import Abacus.Assembly.Token
import Abacus.Canonical
import Abacus.Command.Line
import Abacus.Command.Run
import Abacus.Directory
import Abacus.Evaluation
import Abacus.Fault
import Abacus.Lowering
import Abacus.Main
import Abacus.Parsing.Blanks
import Abacus.Parsing.Grammar
import Abacus.Parsing.Outcome
import Abacus.Parsing.Rules
import Abacus.Pipeline
import Abacus.Proofs.Agreement
import Abacus.Proofs.Arena.Emission
import Abacus.Proofs.Arena.Execution
import Abacus.Proofs.Arena.Layout
import Abacus.Proofs.Assembly.Rereading
import Abacus.Proofs.Assembly.Resolution
import Abacus.Proofs.Assembly.Scanning
import Abacus.Proofs.Assembly.Simulation
import Abacus.Proofs.Assembly.Spelling
import Abacus.Proofs.Canonical.Enclosure
import Abacus.Proofs.Canonical.Regrouping
import Abacus.Proofs.Canonical.RoundTrip
import Abacus.Proofs.Parsing.Completeness
import Abacus.Proofs.Parsing.Derivation
import Abacus.Proofs.Parsing.Language
import Abacus.Proofs.Parsing.Lookahead
import Abacus.Proofs.Parsing.Skipping
import Abacus.Proofs.Parsing.Soundness
import Abacus.Proofs.Positions
import Abacus.Source
import Abacus.Text.Bytes
import Abacus.Text.Columns
import Abacus.Text.Printable
import Abacus.Text.Quoted
import Abacus.Tree
import Abacus.Proofs.Arena.Calls
import Abacus.Proofs.Arena.Soundness
import Abacus.Proofs.Arena.Verification
import Abacus.Proofs.Arena.Recording
import Abacus.Proofs.Arena.Registry
import Abacus.Proofs.Arena.Interpretation
import Abacus.Proofs.Assembly.Faithfulness
import Abacus.Proofs.Parsing.Relocation
import Abacus.Proofs.Parsing.Sequence
import Abacus.Proofs.Sources.Concatenation
import Abacus.Proofs.Arena.Lines
import Abacus.Proofs.Canonical.Literals
import Abacus.Proofs.Canonical.Meaning
import Abacus.Proofs.Sources.Attribution
import Abacus.Proofs.Lowering.Interruption
import Abacus.Proofs.Lowering.Linearity
import Abacus.Proofs.Parsing.Automaton
import Abacus.Proofs.Parsing.Tracing
import Abacus.Proofs.Sources.Viability
import Abacus.Proofs.Acceptance
import Abacus.Proofs.Arena.Atomicity
import Abacus.Proofs.Parsing.Slices
import Abacus.Proofs.Sources.Spans
import Abacus.Proofs.Canonical.Minimality
import Abacus.Proofs.Lowering.Transparency
import Abacus.Proofs.Evaluation.Exactness
import Abacus.Proofs.Evaluation.Stopping
import Abacus.Proofs.Assembly.Truncation
import Abacus.Proofs.Sources.Blocks
import Abacus.Proofs.Parsing.Range
import Abacus.Proofs.Sources.Location
import Abacus.Proofs.Sources.Separation
import Abacus.Proofs.Arena.Diagnosis
import Abacus.Proofs.Evaluation.Output
import Abacus.Proofs.Parsing.Termination
import Abacus.Proofs.Parsing.Invariance
