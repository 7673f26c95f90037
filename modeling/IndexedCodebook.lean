import IndexedCodebook.Document.Load
import IndexedCodebook.Session
import IndexedCodebook.Tensor.Dequantize
import IndexedCodebook.Proofs.Validation.Exact
import IndexedCodebook.Proofs.Safety
import IndexedCodebook.Proofs.Dequantize
import IndexedCodebook.Proofs.Validation.Comparison
import IndexedCodebook.Proofs.Validation.Tally
import IndexedCodebook.Proofs.Validation.Within
import IndexedCodebook.Proofs.Validation.Agreement
import IndexedCodebook.Proofs.Validation.Tolerance
import IndexedCodebook.Proofs.Validation.RoundTrip
import IndexedCodebook.Proofs.Validation.Rounded
import IndexedCodebook.Proofs.Session
import IndexedCodebook.Proofs.Gather.Order
import IndexedCodebook.Proofs.Tensor.Contiguous
import IndexedCodebook.Proofs.Tensor.Dequantize
import IndexedCodebook.Proofs.Binary.Conversion
import IndexedCodebook.Proofs.Binary.Nearest
import IndexedCodebook.Proofs.Binary.Widening
import IndexedCodebook.Proofs.Tensor.BFloat
import IndexedCodebook.Proofs.Tensor.View
import IndexedCodebook.Proofs.Tensor.Contents
import IndexedCodebook.Proofs.Tensor.Misplaced
import IndexedCodebook.Proofs.Binary.Closest
import IndexedCodebook.Proofs.Binary.Exact
import IndexedCodebook.Proofs.Dequantize.Forms
import IndexedCodebook.Proofs.Tensor.Exact
import IndexedCodebook.Proofs.Dequantize.Pieces
import IndexedCodebook.Proofs.Validation.Pieces
import IndexedCodebook.Proofs.Random.Draw
import IndexedCodebook.Proofs.Synthetic
import IndexedCodebook.Proofs.Dequantize.Groups
import IndexedCodebook.Proofs.Validation.Groups
import IndexedCodebook.Proofs.Dequantize.Codebook
import IndexedCodebook.Proofs.Validation.Events
import IndexedCodebook.Proofs.Decimal.Digits
import IndexedCodebook.Proofs.Json.Object
import IndexedCodebook.Proofs.Yaml.PlainWord
import IndexedCodebook.Proofs.Yaml.BlockMapping
import IndexedCodebook.Proofs.Document.Record
import IndexedCodebook.Proofs.Document.Values
import IndexedCodebook.Proofs.Document.Addressing
import IndexedCodebook.Proofs.Addressing.Bijection
import IndexedCodebook.Proofs.Addressing.Coverage
import IndexedCodebook.Proofs.Binary.Order
import IndexedCodebook.Proofs.Validation.Loosening
import IndexedCodebook.Proofs.Binary.Boundary
import IndexedCodebook.Proofs.Binary.RoundedWord
import IndexedCodebook.Proofs.Decimal.Shortest
import IndexedCodebook.Proofs.Decimal.Residues
import IndexedCodebook.Proofs.Decimal.Separation
import IndexedCodebook.Proofs.Decimal.Double
import IndexedCodebook.Proofs.Decimal.Notation
import IndexedCodebook.Proofs.Json.Scale
import IndexedCodebook.Proofs.Json.Spelling
import IndexedCodebook.Proofs.Json.Decimal
import IndexedCodebook.Proofs.Yaml.Decimal
import IndexedCodebook.Proofs.Document.ReadBack
import IndexedCodebook.Proofs.Document.Reals
import IndexedCodebook.Proofs.Document.Settings
