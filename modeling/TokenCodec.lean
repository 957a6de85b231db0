import TokenCodec.Calendar.Rfc3339
import TokenCodec.Codec.Matching
import TokenCodec.Dynamic.Json
import TokenCodec.Dynamic.Xml
import TokenCodec.Json.Literal
import TokenCodec.Stream
import TokenCodec.Xml.Element
import TokenCodec.Xml.Tagged
import TokenCodec.Proofs.Consumption
import TokenCodec.Proofs.Nesting
import TokenCodec.Proofs.Reset
import TokenCodec.Proofs.Composition
import TokenCodec.Proofs.Readable
import TokenCodec.Proofs.Documents
import TokenCodec.Proofs.Streams
import TokenCodec.Proofs.Units
import TokenCodec.Proofs.Choice
import TokenCodec.Proofs.Routing
import TokenCodec.Proofs.Alternation
import TokenCodec.Proofs.Recovery
import TokenCodec.Proofs.Shapes
import TokenCodec.Proofs.TreeDecoding
import TokenCodec.Proofs.Layouts
import TokenCodec.Proofs.RoundTrip
import TokenCodec.Proofs.Elements
import TokenCodec.Proofs.Xml.Conditions
import TokenCodec.Proofs.Xml.Layouts
import TokenCodec.Proofs.Xml.RoundTrip
import TokenCodec.Proofs.Entries
import TokenCodec.Proofs.Xml.Shapes
import TokenCodec.Proofs.Xml.TreeDecoding
import TokenCodec.Proofs.Locations
import TokenCodec.Proofs.Absence
import TokenCodec.Proofs.Xml.Plans
import TokenCodec.Proofs.Xml.Spreading
import TokenCodec.Proofs.Discriminators
import TokenCodec.Proofs.Variants
import TokenCodec.Proofs.Streaming
import TokenCodec.Proofs.Xml.Streaming
import TokenCodec.Proofs.Brackets
import TokenCodec.Proofs.Writable
import TokenCodec.Proofs.Rest
import TokenCodec.Proofs.Balance
import TokenCodec.Proofs.Outlines
import TokenCodec.Proofs.Isolation
import TokenCodec.Proofs.Leftovers
import TokenCodec.Proofs.Truncation
import TokenCodec.Proofs.Finishing
import TokenCodec.Proofs.Strangers
import TokenCodec.Proofs.Xml.Strangers
import TokenCodec.Proofs.Wrapping
import TokenCodec.Proofs.Folding
import TokenCodec.Proofs.Limits
import TokenCodec.Proofs.Numeral.Rounding
import TokenCodec.Proofs.Numeral.Shortest
import TokenCodec.Proofs.Numeral.Texts
import TokenCodec.Proofs.Calendar.Texts
import TokenCodec.Proofs.Cells
import TokenCodec.Proofs.Maps
import TokenCodec.Proofs.Latching
import TokenCodec.Proofs.Numeral.Widths
import TokenCodec.Proofs.Xml.Openings
import TokenCodec.Proofs.Promptness
import TokenCodec.Proofs.Slices
import TokenCodec.Proofs.Regex.Derivations
import TokenCodec.Proofs.Regex.Paths
import TokenCodec.Proofs.Regex.Blocks
import TokenCodec.Proofs.Regex.Settling
import TokenCodec.Proofs.Regex.Searching
import TokenCodec.Proofs.Regex.Assembly
import TokenCodec.Proofs.Regex.Lexemes
import TokenCodec.Proofs.Regex.Reading
import TokenCodec.Proofs.Matching
