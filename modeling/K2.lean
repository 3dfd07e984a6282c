import K2.Compute.Decision
import K2.Compute.Fairness
import K2.Compute.Order
import K2.Compute.Refusal
import K2.Compute.Scheduler
import K2.Compute.Tiers
import K2.Deploy.Frame
import K2.Deploy.StrayC1
import K2.Deploy.TermFilter
import K2.Devices
import K2.Federation.Accounted
import K2.Federation.Envelope
import K2.Federation.Handled
import K2.Federation.Order
import K2.Federation.Outbox
import K2.Federation.World
import K2.FrameRing.Consumer
import K2.FrameRing.Hostile
import K2.FrameRing.Interleaving
import K2.FrameRing.Layout
import K2.FrameRing.Producer
import K2.FrameRing.Pushing
import K2.FrameRing.Reading
import K2.FrameRing.Scale
import K2.FrameRing.Untorn
import K2.FrameRing.World
import K2.FrameRing.Writing
import K2.Front443.ClientHello
import K2.Front443.Final
import K2.Front443.NoPanic
import K2.FsExtract.AllOrNothing
import K2.FsExtract.Confinement
import K2.FsExtract.Extract
import K2.GardenData.BlobCounts
import K2.GardenData.BlobQuotas
import K2.GardenData.BlobRuns
import K2.GardenData.BlobStore
import K2.GardenData.BlobWrites
import K2.GardenData.Blobs
import K2.GardenData.Bookkeeping
import K2.GardenData.Changes
import K2.GardenData.FeedRuns
import K2.GardenData.History
import K2.GardenData.HistoryFeed
import K2.GardenData.HistoryPages
import K2.GardenData.HistoryRuns
import K2.GardenData.MergePatch
import K2.GardenData.Patch
import K2.GardenData.PatchRuns
import K2.GardenData.QuotaRuns
import K2.GardenData.Recorded
import K2.GardenData.RefusedPuts
import K2.GardenData.RestoreRuns
import K2.GardenData.SnapshotRuns
import K2.GardenData.Snapshots
import K2.GardenData.Store
import K2.GardenData.StoreRuns
import K2.GardenData.TimeTravel
import K2.GardenData.Tx
import K2.GardenData.TxRuns
import K2.GardenData.Types
import K2.GardenData.Writes
import K2.Heartbeats.Cron
import K2.Heartbeats.Estimate
import K2.Heartbeats.MissPolicy
import K2.Heartbeats.Overflow
import K2.Heartbeats.Slots
import K2.Homes.AssignAgain
import K2.Homes.AssignOrders
import K2.Homes.Feed
import K2.Homes.Item
import K2.Homes.OrderKeys
import K2.Homes.Spec
import K2.Homes.Store
import K2.HomesSync.Build
import K2.HomesSync.Diff
import K2.HomesSync.Engine
import K2.HomesSync.RoundTrip
import K2.JobLog.Copy
import K2.JobLog.Delivered
import K2.JobLog.Journal
import K2.JobLog.Mirrored
import K2.JobLog.Shipping
import K2.JobLog.Writing
import K2.Json
import K2.JsonText
import K2.KesselAudio.Accounts
import K2.KesselAudio.JitterBuffer
import K2.KesselAudio.PlayOrder
import K2.Lease.TokenKeeper
import K2.Lease.TokenRuns
import K2.Lib.Buffers
import K2.Lib.ByteReader
import K2.Lib.Checked
import K2.Lib.Confined
import K2.Lib.EditPairs
import K2.Lib.Feed
import K2.Lib.FractionalKeys
import K2.Lib.Histories
import K2.Lib.IntervalCoder
import K2.Lib.Lines
import K2.Lib.Machines
import K2.Lib.Matching
import K2.Lib.Patience
import K2.Lib.PublicSuffix
import K2.Lib.RecordLog
import K2.Lib.SharedMemory
import K2.Lib.Sharing
import K2.Lib.Table
import K2.Lib.Terminal
import K2.Lib.Triple
import K2.Lib.UnixFs
import K2.Lib.Windows
import K2.Lib.WrappedCount
import K2.LoginThrottle.Eviction
import K2.LoginThrottle.Exact
import K2.LoginThrottle.Limiter
import K2.LoginThrottle.Runs
import K2.NodeProto.Binding
import K2.NodeProto.Canonical
import K2.NodeProto.Frames
import K2.NodeProto.Sessions
import K2.NodeQueue.Etas
import K2.NodeQueue.FairShare
import K2.NodeQueue.Order
import K2.NodeQueue.Queue
import K2.NodeQueue.Safety
import K2.NodeQueue.Simulation
import K2.NodeQueue.Snapshot
import K2.NodeQueue.Starts
import K2.NodeQueue.SubmitterCap
import K2.NodeQueue.Turns
import K2.Ptyd.Proto
import K2.Ptyd.Ring
import K2.Redact.Base64
import K2.Redact.Stream
import K2.Redact.Variants
import K2.Session.BytesRing
import K2.Stash.Caps
import K2.Stash.Feed
import K2.Stash.Merge
import K2.Stash.Record
import K2.Stash.Spec
import K2.Stash.Store
import K2.Term.Apc
import K2.Term.ApcContent
import K2.Term.ApcMissed
import K2.Term.Sgr
import K2.Term.SgrClean
import K2.TermGrid.Cells
import K2.TermGrid.EncodeRow
import K2.TermGrid.Reflow
import K2.TermGrid.ReflowStyles
import K2.TermGrid.ReflowText
import K2.TermWire.Agreement
import K2.TermWire.Chunks
import K2.TermWire.Delimited
import K2.TermWire.Grid
import K2.TermWire.GridWire
import K2.TermWire.K1
import K2.TermWire.RoundTrip
import K2.Text
import K2.ToolHook.Delivery
import K2.ToolHook.Outbox
import K2.Tunnel.Failover
import K2.Tunnel.MoveRuns
import K2.Tunnel.Moves
import K2.Vault.Hosts
import K2.Vault.Operations
import K2.Vault.Policy
import K2.Vault.Races
import K2.Vault.Releases
import K2.Vault.Resolve
import K2.Vault.Steps
import K2.Vault.Store
import K2.Vault.Types
import K2.Vault.Versions
import K2.Vault.Widening
import K2.Vp8.Agreement
import K2.Vp8.BitReader
import K2.Vp8.BoolDecoder
import K2.Vp8.BoolEncoder
import K2.Vp8.Displaced
import K2.Vp8.FilterMatch
import K2.Vp8.Forward
import K2.Vp8.ForwardInverse
import K2.Vp8.Idct
import K2.Vp8.Keyframe
import K2.Vp8.LoopFilter
import K2.Vp8.Modes
import K2.Vp8.Motion
import K2.Vp8.Predict
import K2.Vp8.Recon
import K2.Vp8.ReferenceFilter
import K2.Vp8.RoundTrip
import K2.Vp8.Tables
import K2.Vp8.Tokens
