import GrammarLayout.Main
import GrammarLayout.Proofs.Action.Passing
import GrammarLayout.Proofs.Layout.Preservation
import GrammarLayout.Proofs.Layout.Relaid
import GrammarLayout.Proofs.Layout.Rereading
import GrammarLayout.Proofs.Layout.Places
import GrammarLayout.Proofs.Layout.TokenTexts
import GrammarLayout.Proofs.Grammar.Alike
import GrammarLayout.Proofs.Grammar.Clean
import GrammarLayout.Proofs.Layout.Diagnostics
import GrammarLayout.Proofs.Layout.Regular
import GrammarLayout.Proofs.Token.Tiling
import GrammarLayout.Proofs.Grammar.Header
import GrammarLayout.Proofs.Grammar.Lookahead
import GrammarLayout.Proofs.Grammar.Acceptance
import GrammarLayout.Proofs.Grammar.Renumbering
import GrammarLayout.Proofs.Layout.Bare
import GrammarLayout.Proofs.Layout.Insensitivity
import GrammarLayout.Proofs.Layout.Resemblance
import GrammarLayout.Proofs.Layout.Idempotence
import GrammarLayout.Proofs.Grammar.Coverage
import GrammarLayout.Proofs.Grammar.Modes
import GrammarLayout.Proofs.Grammar.Regions
import GrammarLayout.Proofs.Layout.Delivery
import GrammarLayout.Proofs.Layout.Gauge
import GrammarLayout.Proofs.Layout.Reports
import GrammarLayout.Proofs.Layout.Visits
import GrammarLayout.Proofs.Layout.Drift
import GrammarLayout.Proofs.Grammar.Bounds
import GrammarLayout.Proofs.Layout.Frames
import GrammarLayout.Proofs.Layout.Muted
import GrammarLayout.Proofs.Grammar.Parts
import GrammarLayout.Proofs.Layout.Beside
import GrammarLayout.Proofs.Layout.Remainder
import GrammarLayout.Proofs.Layout.Tail
import GrammarLayout.Proofs.Layout.Openers
import GrammarLayout.Proofs.Token.Braces
import GrammarLayout.Proofs.Layout.Actions
import GrammarLayout.Proofs.Layout.Stops
import GrammarLayout.Proofs.Layout.Bars
import GrammarLayout.Proofs.Run.Foretold
import GrammarLayout.Proofs.Grammar.Totality
import GrammarLayout.Proofs.Layout.Requests
import GrammarLayout.Proofs.Action.Agreement
import GrammarLayout.Proofs.Token.Offsets
