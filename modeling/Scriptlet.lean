import Scriptlet.CommandLine
import Scriptlet.Diagnostic
import Scriptlet.Grammar.Command
import Scriptlet.Grammar.Dispatch
import Scriptlet.Grammar.Expression
import Scriptlet.Grammar.Nonterminal
import Scriptlet.Grammar.Rule
import Scriptlet.Main
import Scriptlet.Program
import Scriptlet.SymbolTable
import Scriptlet.Text.Characters
import Scriptlet.Text.Notation
import Scriptlet.Token.Basic
import Scriptlet.Token.Cursor
import Scriptlet.Token.Kind
import Scriptlet.Token.Lexeme
import Scriptlet.Token.Scanner
import Scriptlet.Token.Source
import Scriptlet.Tree.Basic
import Scriptlet.Tree.Operator
import Scriptlet.Tree.Outline
import Scriptlet.Tree.Printer
import Scriptlet.Variable
import Scriptlet.Proofs.Acceptance
import Scriptlet.Proofs.Balance
import Scriptlet.Proofs.Beginnings
import Scriptlet.Proofs.Completeness
import Scriptlet.Proofs.Congruence
import Scriptlet.Proofs.Consistency
import Scriptlet.Proofs.ContextFree
import Scriptlet.Proofs.Derivation
import Scriptlet.Proofs.FirstError
import Scriptlet.Proofs.Form
import Scriptlet.Proofs.Gap
import Scriptlet.Proofs.Generated
import Scriptlet.Proofs.GrammarOnly
import Scriptlet.Proofs.Guarded
import Scriptlet.Proofs.Height
import Scriptlet.Proofs.History
import Scriptlet.Proofs.Law
import Scriptlet.Proofs.Limit
import Scriptlet.Proofs.Lineless
import Scriptlet.Proofs.Lines
import Scriptlet.Proofs.Locality
import Scriptlet.Proofs.Located
import Scriptlet.Proofs.LongestMatch
import Scriptlet.Proofs.Lookahead
import Scriptlet.Proofs.Mention
import Scriptlet.Proofs.Modes
import Scriptlet.Proofs.Occurrence
import Scriptlet.Proofs.Offset
import Scriptlet.Proofs.Partition
import Scriptlet.Proofs.Pattern
import Scriptlet.Proofs.Precedence
import Scriptlet.Proofs.Productions
import Scriptlet.Proofs.Progress
import Scriptlet.Proofs.Quotation
import Scriptlet.Proofs.Reading
import Scriptlet.Proofs.Record
import Scriptlet.Proofs.Relabel
import Scriptlet.Proofs.Rendering
import Scriptlet.Proofs.Report
import Scriptlet.Proofs.Resolution
import Scriptlet.Proofs.RoundTrip
import Scriptlet.Proofs.Sentences
import Scriptlet.Proofs.Settled
import Scriptlet.Proofs.Shape
import Scriptlet.Proofs.Soundness
import Scriptlet.Proofs.Sources
import Scriptlet.Proofs.Spacing
import Scriptlet.Proofs.Spelling
import Scriptlet.Proofs.Stamp
import Scriptlet.Proofs.Table
import Scriptlet.Proofs.Tape
import Scriptlet.Proofs.Targets
import Scriptlet.Proofs.Verdict
import Scriptlet.Proofs.WellFormed
import Scriptlet.Proofs.Word
