import Disassembly.CommandLine.Arguments
import Disassembly.CommandLine.FileTree
import Disassembly.CommandLine.Files
import Disassembly.CommandLine.Program
import Disassembly.Flow.AddressSet
import Disassembly.Flow.Block
import Disassembly.Flow.Edge
import Disassembly.Flow.Exploration
import Disassembly.Flow.Graph
import Disassembly.Flow.Label
import Disassembly.Flow.LabelText
import Disassembly.Flow.Queue
import Disassembly.Flow.Routine
import Disassembly.Isa.Definition
import Disassembly.Isa.Encoding
import Disassembly.Isa.Feature
import Disassembly.Isa.Field
import Disassembly.Isa.Instruction
import Disassembly.Isa.OpcodeIndex
import Disassembly.Isa.Operand
import Disassembly.Isa.Register
import Disassembly.Json.Basic
import Disassembly.Json.Lexeme
import Disassembly.Json.Read
import Disassembly.Json.Record
import Disassembly.Json.Write
import Disassembly.Listing.Line
import Disassembly.Listing.Page
import Disassembly.Listing.Render
import Disassembly.Listing.Report
import Disassembly.Listing.Row
import Disassembly.Listing.Style
import Disassembly.Listing.StyleText
import Disassembly.Main
import Disassembly.Memory.ByteSource
import Disassembly.Memory.Coverage
import Disassembly.Memory.Image
import Disassembly.Memory.Linear
import Disassembly.Processor
import Disassembly.Proofs.Flow.BasicBlock
import Disassembly.Proofs.Flow.BlockSpan
import Disassembly.Proofs.Flow.Chain
import Disassembly.Proofs.Flow.Cover
import Disassembly.Proofs.Flow.Discovery
import Disassembly.Proofs.Flow.EdgeRecord
import Disassembly.Proofs.Flow.EntryOrder
import Disassembly.Proofs.Flow.Label
import Disassembly.Proofs.Flow.LabelText
import Disassembly.Proofs.Flow.Locality
import Disassembly.Proofs.Flow.MaximalChain
import Disassembly.Proofs.Flow.Naming
import Disassembly.Proofs.Flow.Owner
import Disassembly.Proofs.Flow.Placement
import Disassembly.Proofs.Flow.Reachability
import Disassembly.Proofs.Flow.Routine
import Disassembly.Proofs.Flow.RoutineBlock
import Disassembly.Proofs.Flow.RoutineBody
import Disassembly.Proofs.Flow.Search
import Disassembly.Proofs.Flow.Termination
import Disassembly.Proofs.Flow.Truncation
import Disassembly.Proofs.Isa.Agreement
import Disassembly.Proofs.Isa.Classification
import Disassembly.Proofs.Isa.Codec
import Disassembly.Proofs.Isa.CutShort
import Disassembly.Proofs.Isa.Decoding
import Disassembly.Proofs.Isa.FirstFault
import Disassembly.Proofs.Isa.OpcodeIndex
import Disassembly.Proofs.Isa.Slot
import Disassembly.Proofs.Isa.Validation
import Disassembly.Proofs.Json.Reading
import Disassembly.Proofs.Json.RoundTrip
import Disassembly.Proofs.Listing.Completeness
import Disassembly.Proofs.Listing.Identification
import Disassembly.Proofs.Listing.NameUse
import Disassembly.Proofs.Listing.NoWrap
import Disassembly.Proofs.Listing.PageText
import Disassembly.Proofs.Listing.Sweep
import Disassembly.Proofs.Listing.Symbol
import Disassembly.Proofs.Listing.Tiling
import Disassembly.Proofs.Listing.Walk
import Disassembly.Proofs.Listing.Words
import Disassembly.Proofs.Memory.Coverage
import Disassembly.Proofs.Memory.Loading
import Disassembly.Proofs.Memory.Mapping
import Disassembly.Proofs.Memory.Segmentation
import Disassembly.Proofs.Text.Numeral
import Disassembly.Text.Blank
import Disassembly.Text.Digits
import Disassembly.Text.Number
import Disassembly.Proofs.Memory.LastWrite
import Disassembly.Proofs.Text.AddressGrammar
import Disassembly.Proofs.Text.NumberText
import Disassembly.Proofs.Json.Grammar
import Disassembly.Proofs.Json.Number
import Disassembly.Proofs.Json.Acceptance
import Disassembly.Proofs.Json.Soundness
import Disassembly.Proofs.Json.Record
import Disassembly.Proofs.Listing.StyleText
