import NexusRv.RetStack
import NexusRv.Layout
import NexusRv.Decoder
import NexusRv.Refinement
import NexusRv.Framing
import NexusRv.EncoderBounds
import NexusRv.Filter
import NexusRv.PartialReads
import NexusRv.Slicing
import NexusRv.Tnts
import NexusRv.Progress
import NexusRv.TntOrder
import NexusRv.Ledger
import NexusRv.Timestamps
import NexusRv.Ict
import NexusRv.BranchSync
import NexusRv.Recode
import NexusRv.Position
import NexusRv.Stream
import NexusRv.Patch
import NexusRv.Split
import NexusRv.Text
import NexusRv.Address
import NexusRv.MessageSize
import NexusRv.WireFields
import NexusRv.Resync
import NexusRv.Assemble
import NexusRv.ReadBack
import NexusRv.Replay
import NexusRv.Events
import NexusRv.Outcomes
import NexusRv.LookAhead
import NexusRv.Slices
import NexusRv.OutOfTurn
import NexusRv.Recovery
import NexusRv.Config
import NexusRv.Grammar
import NexusRv.Logger
import NexusRv.Vao
import NexusRv.Ucore
import NexusRv.Erasure
import NexusRv.Paths
import NexusRv.Sifting
import NexusRv.Reprint
import NexusRv.Repack
import NexusRv.Kcore
