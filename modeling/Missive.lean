import Missive.Decode
import Missive.Descriptor
import Missive.Encode
import Missive.Error
import Missive.FieldTable
import Missive.FieldType
import Missive.Fields
import Missive.LeafEnum
import Missive.Number.Basic
import Missive.Number.Bounded
import Missive.Number.Numeral
import Missive.Number.Shortest
import Missive.Number.Text
import Missive.Options.Basic
import Missive.Options.Text
import Missive.Packing
import Missive.Path
import Missive.Proofs.Outcome
import Missive.Proofs.Tree
import Missive.Registry.Basic
import Missive.Registry.Listing
import Missive.Sample.Definitions
import Missive.Sample.Types
import Missive.Sample.FieldKind
import Missive.Sample.Instance
import Missive.Sample.Script
import Missive.Text.Container
import Missive.Text.Numeral
import Missive.Text.Printer
import Missive.Text.Quoted
import Missive.Text.Reader
import Missive.Text.Value
import Missive.Tree
import Missive.Value
import Missive.Proofs.Encode
import Missive.Proofs.Decode
import Missive.Proofs.Failure
import Missive.Proofs.FieldType
import Missive.Proofs.Registrations
import Missive.Proofs.Factory
import Missive.Proofs.RoundTrip
import Missive.Proofs.Sample.Factories
import Missive.Proofs.Sample.Families
import Missive.Proofs.Sample.RoundTrip
import Missive.Proofs.Text.Numeral
import Missive.Proofs.Text.Quoted
import Missive.Proofs.Text.Tree
import Missive.Proofs.Sample.TextRoundTrip
import Missive.Proofs.Canonical
import Missive.Proofs.Reencoding
import Missive.Proofs.Sample.Reencoding
import Missive.Proofs.Declared
import Missive.Proofs.Depth
import Missive.Proofs.Validation
import Missive.Proofs.EncodeDepth
import Missive.Proofs.DecodeDepth
import Missive.Proofs.Conversion
import Missive.Proofs.Truth
import Missive.Proofs.Sample.Truth
import Missive.Proofs.Runs
import Missive.Proofs.Lockstep
import Missive.Proofs.Policies
import Missive.Proofs.Extension
import Missive.Proofs.MessageNodes
import Missive.Proofs.Tracing
import Missive.Proofs.FactoryCalls
import Missive.Proofs.Rearrangement
import Missive.Proofs.RegistrationOrder
import Missive.Proofs.Reference
import Missive.Proofs.Sample.NullCollapse
import Missive.Proofs.Layout
import Missive.Proofs.Outline
import Missive.Proofs.EncodeFailure
import Missive.Proofs.Location
import Missive.Proofs.LimitErrors
import Missive.Proofs.Listing
import Missive.Proofs.LeafFields
import Missive.Proofs.PathText
import Missive.Proofs.Walk
