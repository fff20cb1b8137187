import Sestrian.Beacon.Agreement
import Sestrian.Boot.Fast
import Sestrian.Boot.Full
import Sestrian.Bridge.Story
import Sestrian.Bridge.Sync
import Sestrian.Capacity.Controller
import Sestrian.Capacity.Headroom
import Sestrian.Capacity.Offsets
import Sestrian.Capacity.Rotation
import Sestrian.Capacity.RoundTrip
import Sestrian.Capacity.Runs
import Sestrian.Capacity.Saved
import Sestrian.Capacity.Table
import Sestrian.Client.Growth
import Sestrian.Client.InPlace
import Sestrian.Client.Layout
import Sestrian.Client.Planned
import Sestrian.Code.AccountJson
import Sestrian.Code.Beacon
import Sestrian.Code.BlockTree
import Sestrian.Code.Boot
import Sestrian.Code.Bridge
import Sestrian.Code.Bytes
import Sestrian.Code.Capacity
import Sestrian.Code.CatchUp
import Sestrian.Code.Client
import Sestrian.Code.Core
import Sestrian.Code.Corpus
import Sestrian.Code.Crypto
import Sestrian.Code.Da
import Sestrian.Code.DaRun
import Sestrian.Code.Decode
import Sestrian.Code.Emit
import Sestrian.Code.Events
import Sestrian.Code.Fraud
import Sestrian.Code.Json
import Sestrian.Code.Log
import Sestrian.Code.Lottery
import Sestrian.Code.Merkle
import Sestrian.Code.Model
import Sestrian.Code.ModelJson
import Sestrian.Code.Node
import Sestrian.Code.Offsets
import Sestrian.Code.Paged
import Sestrian.Code.Planner
import Sestrian.Code.Produce
import Sestrian.Code.Proto
import Sestrian.Code.RigJson
import Sestrian.Code.RigLottery
import Sestrian.Code.RigReceipt
import Sestrian.Code.Sampling
import Sestrian.Code.Serve
import Sestrian.Code.Store
import Sestrian.Code.SyncServe
import Sestrian.Code.Token
import Sestrian.Code.Toy
import Sestrian.Code.Validate
import Sestrian.Code.Value
import Sestrian.Code.ValueLedger
import Sestrian.Da.Authentic
import Sestrian.Da.Field
import Sestrian.Da.Guards
import Sestrian.Da.Matrix
import Sestrian.Da.Recover
import Sestrian.Da.Sampling
import Sestrian.Disk.Log
import Sestrian.Fraud.Complete
import Sestrian.Fraud.Convicts
import Sestrian.Fraud.Harm
import Sestrian.Fraud.Wire
import Sestrian.Ledger.Apply
import Sestrian.Ledger.BondBooks
import Sestrian.Ledger.Bonds
import Sestrian.Ledger.Booked
import Sestrian.Ledger.DryRun
import Sestrian.Ledger.Escrow
import Sestrian.Ledger.Market
import Sestrian.Ledger.Nonces
import Sestrian.Ledger.Owners
import Sestrian.Ledger.PlainRuns
import Sestrian.Ledger.Preimages
import Sestrian.Ledger.Receipts
import Sestrian.Ledger.RootBytes
import Sestrian.Ledger.Settle
import Sestrian.Ledger.Signing
import Sestrian.Ledger.Snapshot
import Sestrian.Ledger.Traded
import Sestrian.Ledger.ValueRuns
import Sestrian.Ledger.Values
import Sestrian.Ledger.Wire
import Sestrian.Lib.Bounded
import Sestrian.Lib.Carousel
import Sestrian.Lib.Check
import Sestrian.Lib.Elim
import Sestrian.Lib.Framing
import Sestrian.Lib.Orders
import Sestrian.Lib.PairTree
import Sestrian.Lib.Panic
import Sestrian.Lib.Patch
import Sestrian.Lib.Schnorr
import Sestrian.Lib.Select
import Sestrian.Lib.Shamir
import Sestrian.Lib.Stripe
import Sestrian.Lib.SumMap
import Sestrian.Lib.Trim
import Sestrian.Lib.Walk
import Sestrian.Lottery.Draw
import Sestrian.Lottery.Exact
import Sestrian.Lottery.Lanes
import Sestrian.Node.Adopt
import Sestrian.Node.Bodies
import Sestrian.Node.CatchUp
import Sestrian.Node.Converge
import Sestrian.Node.Driven
import Sestrian.Node.Early
import Sestrian.Node.Genuine
import Sestrian.Node.Included
import Sestrian.Node.Kept
import Sestrian.Node.LateDelta
import Sestrian.Node.Line
import Sestrian.Node.Lockstep
import Sestrian.Node.Serve
import Sestrian.Node.Steps
import Sestrian.Node.Trims
import Sestrian.Paged.Bodies
import Sestrian.Paged.Layout
import Sestrian.Paged.Rewind
import Sestrian.Paged.Simulate
import Sestrian.Paged.Stage
import Sestrian.Paged.Whole
import Sestrian.Tree.Aggregate
import Sestrian.Tree.Branches
import Sestrian.Tree.Chunks
import Sestrian.Tree.Coherent
import Sestrian.Tree.Convict
import Sestrian.Tree.Decoders
import Sestrian.Tree.Delta
import Sestrian.Tree.Empty
import Sestrian.Tree.Fork
import Sestrian.Tree.Growth
import Sestrian.Tree.Heights
import Sestrian.Tree.Identity
import Sestrian.Tree.Incremental
import Sestrian.Tree.LeafCache
import Sestrian.Tree.Leaves
import Sestrian.Tree.Moves
import Sestrian.Tree.Order
import Sestrian.Tree.Pages
import Sestrian.Tree.Replay
import Sestrian.Tree.Robust
import Sestrian.Tree.Sealed
import Sestrian.Tree.Slot
import Sestrian.Tree.Spec
import Sestrian.Tree.Step
import Sestrian.Tree.Survivor
import Sestrian.Tree.Tip
import Sestrian.Tree.Unpruned
import Sestrian.Tree.Work
