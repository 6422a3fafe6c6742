import PrefixCode.Codebook
import PrefixCode.Main
import PrefixCode.Reader
import PrefixCode.Proofs.Kraft
import PrefixCode.Proofs.Layout
import PrefixCode.Proofs.Refusal
import PrefixCode.Proofs.Codebook
import PrefixCode.Proofs.Sorting
import PrefixCode.Proofs.Lookup
import PrefixCode.Proofs.Decoder
import PrefixCode.Proofs.RoundTrip
import PrefixCode.Proofs.PrefixFree
import PrefixCode.Proofs.Reader
import PrefixCode.Proofs.Stream
import PrefixCode.Proofs.ReadAll
import PrefixCode.Proofs.Conservation
import PrefixCode.Proofs.Coverage
import PrefixCode.Proofs.Completeness
import PrefixCode.Proofs.Order
import PrefixCode.Proofs.Least
import PrefixCode.Proofs.Observation
import PrefixCode.Proofs.Grammar
import PrefixCode.Proofs.Acceptance
import PrefixCode.Proofs.Renaming
import PrefixCode.Proofs.Rearrangement
import PrefixCode.Proofs.Maximal
import PrefixCode.Proofs.Lengthening
import PrefixCode.Proofs.Extension
import PrefixCode.Proofs.Exactness
import PrefixCode.Proofs.BitText
import PrefixCode.Proofs.Printing
import PrefixCode.Proofs.Outcome
import PrefixCode.Proofs.Statistics
import PrefixCode.Proofs.Concatenation
import PrefixCode.Proofs.Verbosity
import PrefixCode.Proofs.Enumeration
import PrefixCode.Proofs.Identification
import PrefixCode.Proofs.PrefixOrder
import PrefixCode.Proofs.Reversal
import PrefixCode.Proofs.Queries
import PrefixCode.Proofs.Headroom
import PrefixCode.Proofs.Accumulation
import PrefixCode.Proofs.Filling
import PrefixCode.Proofs.Sources
