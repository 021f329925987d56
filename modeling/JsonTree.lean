import JsonTree.Value.Equality
import JsonTree.Value.Release
import JsonTree.Document
import JsonTree.Layout
import JsonTree.Path
import JsonTree.Whitespace.Lanes
import JsonTree.Proofs.Tree
import JsonTree.Proofs.Bytes
import JsonTree.Proofs.Utf8
import JsonTree.Proofs.Literals
import JsonTree.Proofs.Integers
import JsonTree.Proofs.Grammar
import JsonTree.Proofs.Numbers
import JsonTree.Proofs.Reading
import JsonTree.Proofs.Parsing
import JsonTree.Proofs.Spelling
import JsonTree.Proofs.Quoting
import JsonTree.Proofs.Writing
import JsonTree.Proofs.Failing
import JsonTree.Proofs.Faults
import JsonTree.Proofs.ErrorRecords
import JsonTree.Proofs.Scanning
import JsonTree.Proofs.NumberModes
import JsonTree.Proofs.FirstFailure
import JsonTree.Proofs.Lossless
import JsonTree.Proofs.Brackets
import JsonTree.Proofs.DepthLimit
import JsonTree.Proofs.Context
import JsonTree.Proofs.StrictGrammar
import JsonTree.Proofs.StrictText
import JsonTree.Proofs.Truncation
import JsonTree.Proofs.Checked.Marks
import JsonTree.Proofs.Checked.Escapes
import JsonTree.Proofs.Checked.Numbers
import JsonTree.Proofs.Checked.Documents
import JsonTree.Proofs.Amounts
import JsonTree.Proofs.ExactIntegers
import JsonTree.Proofs.LeadingDigits
import JsonTree.Proofs.CompiledPaths
import JsonTree.Proofs.Lookups
import JsonTree.Proofs.FloatSearch
import JsonTree.Proofs.Numerals
import JsonTree.Proofs.FloatBits
import JsonTree.Proofs.Rounding
import JsonTree.Proofs.FloatDecoding
import JsonTree.Proofs.ShortestDecimals
import JsonTree.Proofs.FloatRoundTrip
import JsonTree.Proofs.JoinedPaths
import JsonTree.Proofs.PlacedNumbers
import JsonTree.Proofs.StringDefects
import JsonTree.Proofs.CappedExponents
import JsonTree.Proofs.StrictIntegers
import JsonTree.Proofs.Places
import JsonTree.Proofs.Release
import JsonTree.Proofs.Indentation
