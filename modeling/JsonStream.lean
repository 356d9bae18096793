import JsonStream.Chunking
import JsonStream.Recording
import JsonStream.Transcoder
import JsonStream.Version
import JsonStream.Proofs.ChunkIndependence
import JsonStream.Proofs.Text.Utf8
import JsonStream.Proofs.Number.Literal
import JsonStream.Proofs.Number.Phase
import JsonStream.Proofs.Grammar
import JsonStream.Proofs.Grammar.Scalars
import JsonStream.Proofs.Grammar.Flaws
import JsonStream.Proofs.Grammar.Strings
import JsonStream.Proofs.Grammar.Structure
import JsonStream.Proofs.Grammar.Completeness
import JsonStream.Proofs.Grammar.Soundness
import JsonStream.Proofs.Acceptance
import JsonStream.Proofs.Writer.Prints
import JsonStream.Proofs.Transcoding
import JsonStream.Proofs.Writer.Conservation
import JsonStream.Proofs.Writer.Layout
import JsonStream.Proofs.Grammar.Printing
import JsonStream.Proofs.Grammar.Quoted
import JsonStream.Proofs.Number.Digits
import JsonStream.Proofs.Number.Canonical
import JsonStream.Proofs.Number.Integer
import JsonStream.Proofs.Grammar.Numerals
import JsonStream.Proofs.Reencoding
import JsonStream.Proofs.FixedPoint
import JsonStream.Proofs.RoundTrip
import JsonStream.Proofs.Outline
import JsonStream.Proofs.Outline.Frames
import JsonStream.Proofs.Outline.Reader
import JsonStream.Proofs.Session
import JsonStream.Proofs.Machine.Spelled
import JsonStream.Proofs.Lockstep
import JsonStream.Proofs.Machine.Viable
import JsonStream.Proofs.ViablePrefix
import JsonStream.Proofs.Options
import JsonStream.Proofs.Number.Conversion
import JsonStream.Proofs.Machine.Place
import JsonStream.Proofs.NumberOptions.Calls
import JsonStream.Proofs.NumberOptions
import JsonStream.Proofs.Text.Latin1
import JsonStream.Proofs.Machine.Latin1
import JsonStream.Proofs.Encodings
import JsonStream.Proofs.Driving
import JsonStream.Proofs.Machine.Visits
import JsonStream.Proofs.Transcript
import JsonStream.Proofs.Protocol
import JsonStream.Proofs.Positions
import JsonStream.Proofs.Machine.Slices
import JsonStream.Proofs.Payloads
import JsonStream.Proofs.Writer.Refusals
import JsonStream.Proofs.Number.Exact
import JsonStream.Proofs.Number.Display
import JsonStream.Proofs.StringOutcomes
import JsonStream.Proofs.Text.Validation
import JsonStream.Proofs.Writer.Encoded
import JsonStream.Proofs.Draining
import JsonStream.Proofs.Grammar.Munch
import JsonStream.Proofs.Number.Walk
import JsonStream.Proofs.WordOutcomes
import JsonStream.Proofs.Grammar.Places
import JsonStream.Proofs.Grammar.Standing
import JsonStream.Proofs.Grammar.OnePlace
import JsonStream.Proofs.StructuralErrors
import JsonStream.Proofs.Binary64.Nearest
import JsonStream.Proofs.Binary64.Interval
import JsonStream.Proofs.Binary64.Shortest
import JsonStream.Proofs.Binary64.Text
import JsonStream.Proofs.Number.Scientific
import JsonStream.Proofs.NumberOutcomes
import JsonStream.Proofs.FloatOutcomes
import JsonStream.Proofs.Writer.Faithful
import JsonStream.Proofs.Text.Quoting
import JsonStream.Proofs.Writer.Alphabet
import JsonStream.Proofs.Chunking
import JsonStream.Proofs.Flags
import JsonStream.Proofs.Flags.Reader
