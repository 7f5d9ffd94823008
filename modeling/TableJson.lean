import TableJson.Debug.Table
import TableJson.Journal
import TableJson.Machine.Recorder
import TableJson.Token.Emit
import TableJson.Token.Offer
import TableJson.Value.Children
import TableJson.Value.Of
import TableJson.Value.Step
import TableJson.Wire.Decode
import TableJson.Wire.Encode
import TableJson.Proofs.Machine.Scan
import TableJson.Proofs.Machine.Text
import TableJson.Proofs.Grammar.Lexeme
import TableJson.Proofs.Grammar.Tree
import TableJson.Proofs.Grammar.Tables
import TableJson.Proofs.Grammar.Lexing
import TableJson.Proofs.Grammar.NumberTable
import TableJson.Proofs.Grammar.StringTable
import TableJson.Proofs.Grammar.Soundness
import TableJson.Proofs.Grammar.Completeness
import TableJson.Proofs.Grammar.Strings
import TableJson.Proofs.Grammar.Numbers
import TableJson.Proofs.Grammar.Reporting
import TableJson.Proofs.Event.Telling
import TableJson.Proofs.Builder.Attaching
import TableJson.Proofs.Grammar.Building
import TableJson.Proofs.Grammar.Documents
import TableJson.Proofs.Value.Read
import TableJson.Proofs.Grammar.Closure
import TableJson.Proofs.Grammar.Inner
import TableJson.Proofs.Grammar.Logging
import TableJson.Proofs.Grammar.Protocol
import TableJson.Proofs.Number.Rounding
import TableJson.Proofs.Number.Shortest
import TableJson.Proofs.Number.Nearest
import TableJson.Proofs.Number.RoundTrip
import TableJson.Proofs.Grammar.NumberTexts
import TableJson.Proofs.Grammar.StringTexts
import TableJson.Proofs.Text.Spelling
import TableJson.Proofs.Value.Norm
import TableJson.Proofs.Value.RoundTrip
import TableJson.Proofs.Value.Reparse
import TableJson.Proofs.Value.Gathering
import TableJson.Proofs.Wire.Reader
import TableJson.Proofs.Wire.Layout
import TableJson.Proofs.Wire.RoundTrip
import TableJson.Proofs.Wire.Stability
import TableJson.Proofs.Wire.Parts
import TableJson.Proofs.Wire.Canonical
import TableJson.Proofs.Grammar.Places
import TableJson.Proofs.Grammar.Independence
import TableJson.Proofs.Grammar.Faithful
import TableJson.Proofs.Value.Filling
import TableJson.Proofs.Machine.Budget
import TableJson.Proofs.Event.Outline
import TableJson.Proofs.Grammar.Tracking
import TableJson.Proofs.Value.Bracketing
import TableJson.Proofs.Grammar.Depths
import TableJson.Proofs.Grammar.Brackets
import TableJson.Proofs.Grammar.Relaxing
import TableJson.Proofs.Grammar.Overflow
import TableJson.Proofs.Wire.Extent
import TableJson.Proofs.Value.Limits
import TableJson.Proofs.Machine.Locality
import TableJson.Proofs.Machine.Paths
import TableJson.Proofs.Grammar.Languages
import TableJson.Proofs.Grammar.Lookahead
import TableJson.Proofs.Grammar.Faults
import TableJson.Proofs.Grammar.Positions
import TableJson.Proofs.Text.ByteOrder
import TableJson.Proofs.Value.Opening
import TableJson.Proofs.Value.Storing
import TableJson.Proofs.Value.Pointing
import TableJson.Proofs.Text.Surrogates
import TableJson.Proofs.Grammar.Decoding
import TableJson.Proofs.Grammar.Escaping
import TableJson.Proofs.Grammar.Spots
import TableJson.Proofs.Grammar.Classification
import TableJson.Proofs.Machine.Watching
import TableJson.Proofs.Machine.Repetition
import TableJson.Proofs.Machine.Alignment
import TableJson.Proofs.Grammar.Boundaries
import TableJson.Proofs.Builder.Composing
import TableJson.Proofs.Builder.Using
import TableJson.Proofs.Convert.Truncating
import TableJson.Proofs.Convert.IntegerTexts
import TableJson.Proofs.Text.Words
import TableJson.Proofs.Text.Refusal
import TableJson.Proofs.Value.Unsigned
import TableJson.Proofs.Token.Replay
import TableJson.Proofs.Value.Listing
import TableJson.Proofs.Machine.Visits
import TableJson.Proofs.Grammar.Rows
import TableJson.Proofs.Grammar.Bookkeeping
import TableJson.Proofs.Machine.Ample
import TableJson.Proofs.Value.Making
