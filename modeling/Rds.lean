import Rds.Main
import Rds.Value.Equality
import Rds.Value.Spine
import Rds.Proofs.Reading
import Rds.Proofs.Descent
import Rds.Proofs.Descent.Agreement
import Rds.Proofs.Locality
import Rds.Proofs.Locality.Stream
import Rds.Proofs.Words
import Rds.Proofs.Wire
import Rds.Proofs.Wire.Unique
import Rds.Proofs.Depth
import Rds.Proofs.Utf8
import Rds.Proofs.Attributes
import Rds.Proofs.Erasure
import Rds.Proofs.Storable
import Rds.Proofs.Encoding
import Rds.Proofs.Encoding.Plain
import Rds.Proofs.Encoding.RoundTrip
import Rds.Proofs.Wire.Parts
import Rds.Proofs.Wire.Meaning
import Rds.Proofs.Account
import Rds.Proofs.Account.Session
import Rds.Proofs.Path
import Rds.Proofs.Wire.Path
import Rds.Proofs.Missing
import Rds.Proofs.Nodes
import Rds.Proofs.Lockstep
import Rds.Proofs.Reserved
import Rds.Proofs.Sharing
import Rds.Proofs.Turns
import Rds.Proofs.Graph
import Rds.Proofs.Weight
import Rds.Proofs.Normal
import Rds.Proofs.Equality
import Rds.Proofs.Json
import Rds.Proofs.Json.Equal
import Rds.Proofs.Decimal.Numeral
import Rds.Proofs.Decimal.Rounding
import Rds.Proofs.Decimal.Text
import Rds.Proofs.Json.Scalar
import Rds.Proofs.Json.Shown
import Rds.Proofs.Json.Injective
import Rds.Proofs.Attributes.Binding
import Rds.Proofs.Attributes.Rebinding
import Rds.Proofs.Refusal
import Rds.Proofs.Outline
import Rds.Proofs.Json.Entries
import Rds.Proofs.Outline.Attributes
import Rds.Proofs.Json.Missing
import Rds.Proofs.Header
import Rds.Proofs.Bound
import Rds.Proofs.Wire.Shedding
import Rds.Proofs.Discarding
import Rds.Proofs.Reference
import Rds.Proofs.Logging
import Rds.Proofs.Decoding
import Rds.Proofs.Source
import Rds.Proofs.Envelope
import Rds.Proofs.Records
import Rds.Proofs.Records.Faithful
import Rds.Proofs.Outline.Indent
import Rds.Proofs.Cursor
import Rds.Proofs.Utf8.Repair
import Rds.Proofs.Countdown
import Rds.Proofs.Countdown.Invariant
