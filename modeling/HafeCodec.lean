import HafeCodec.Library.ExceptFold
import HafeCodec.Library.BitString
import HafeCodec.Library.ByteOrder
import HafeCodec.Library.MinQueue
import HafeCodec.Library.LengthAssignment
import HafeCodec.Library.CodeTree
import HafeCodec.Library.PrefixCode
import HafeCodec.Library.GreedyMerge
import HafeCodec.Library.Chain
import HafeCodec.Library.Entropy
import HafeCodec.Library.ShortestMatch
import HafeCodec.Library.ReferenceParser
import HafeCodec.Library.Emission
import HafeCodec.Machine
import HafeCodec.BitArray.Byte
import HafeCodec.BitArray.Basic
import HafeCodec.BitArray.Bits
import HafeCodec.BitArray.Constructors
import HafeCodec.BitArray.Observation
import HafeCodec.BitArray.Append
import HafeCodec.BitArray.Comparison
import HafeCodec.BitArray.Equality
import HafeCodec.BitArray.Concatenation
import HafeCodec.BitArray.Program
import HafeCodec.BitArray.Literal
import HafeCodec.BitArray.Iterator
import HafeCodec.BitArray.Moves
import HafeCodec.Tree.Histogram
import HafeCodec.Tree.Iteration
import HafeCodec.Tree.HuffmanNode
import HafeCodec.Tree.HuffmanTree
import HafeCodec.Tree.Construction
import HafeCodec.Table.SymbolTable
import HafeCodec.Table.Codewords
import HafeCodec.Table.Shape
import HafeCodec.Table.WorstCase
import HafeCodec.Table.InverseSymbolTable
import HafeCodec.Codec.Encoder
import HafeCodec.Codec.Overrun
import HafeCodec.Codec.Decoder
import HafeCodec.Codec.Resynchronization
import HafeCodec.Codec.Reference
import HafeCodec.Format.Hafe
import HafeCodec.Format.Entries
import HafeCodec.Format.Archive
import HafeCodec.Format.Writer
import HafeCodec.Format.OutputStream
import HafeCodec.Format.Canonical
import HafeCodec.Format.Diagnosis
import HafeCodec.Format.HostOrder
import HafeCodec.Format.Acceptance
import HafeCodec.Codec.RoundTrip
import HafeCodec.Codec.Rest
import HafeCodec.Codec.Padding
import HafeCodec.Codec.Compression
import HafeCodec.Codec.WorstCase
import HafeCodec.Codec.Size
import HafeCodec.Codec.Contents
import HafeCodec.Codec.Damage
import HafeCodec.Codec.Main
