import Agmem.Relational.Table
import Agmem.Relational.Lookup
import Agmem.Transition.Run
import Agmem.Transition.Optimistic
import Agmem.Transition.Pair
import Agmem.Transition.Snapshot
import Agmem.Transition.Script
import Agmem.Transition.Batch
import Agmem.Transition.Versioned
import Agmem.Transition.Since
import Agmem.Transition.Lock
import Agmem.Transition.Loop
import Agmem.Links.Successor
import Agmem.Links.Collect
import Agmem.Links.Union
import Agmem.Files.Tree
import Agmem.Files.Bytes
import Agmem.Files.Resolve
import Agmem.Time.Tiling
import Agmem.Json.Number
import Agmem.Json.Value
import Agmem.Json.RoundTrip
import Agmem.Json.Lines
import Agmem.Json.Decode
import Agmem.Json.Floats
import Agmem.Ranking.Quota
import Agmem.Ranking.Gaps
import Agmem.Ranking.Stable
import Agmem.Ranking.Runs
import Agmem.Ranking.Placed
import Agmem.Ranking.Packing
import Agmem.Claims.Assertion
import Agmem.Core.Dedup
import Agmem.Core.Unit
import Agmem.Core.Chunk
import Agmem.Core.Words
import Agmem.Core.Pieces
import Agmem.Core.Casing
import Agmem.Core.Normalized
import Agmem.Core.Model
import Agmem.Core.Scoring
import Agmem.Core.Pool
import Agmem.Core.Decay
import Agmem.Core.Window
import Agmem.Core.Ulid
import Agmem.Store.Db
import Agmem.Store.Write
import Agmem.Store.Effect
import Agmem.Store.Change
import Agmem.Store.Op
import Agmem.Store.Columns
import Agmem.Store.Rows
import Agmem.Store.Expiry
import Agmem.Store.Recalled
import Agmem.Store.LiveClaims
import Agmem.Store.Block
import Agmem.Store.Passes
import Agmem.Store.Landing
import Agmem.Store.Outcome
import Agmem.Store.Collision
import Agmem.Store.Idempotence
import Agmem.Store.Closing
import Agmem.Store.Lineage
import Agmem.Store.Validity
import Agmem.Store.Heads
import Agmem.Store.Symmetry
import Agmem.Store.Read
import Agmem.Store.Search
import Agmem.Store.Terms
import Agmem.Store.Snapshots
import Agmem.Store.Spaces
import Agmem.Store.Chains
import Agmem.Store.Placement
import Agmem.Store.History
import Agmem.Store.Documents
import Agmem.Store.Citers
import Agmem.Store.Interleaving
import Agmem.Store.Contention
import Agmem.Store.VectorSpace
import Agmem.Store.Reindex
import Agmem.Store.Drain
import Agmem.Store.Recovery
import Agmem.Store.Startup
import Agmem.Store.Processes
import Agmem.Store.Mixture
import Agmem.Store.FirstRuns
import Agmem.Store.Migrations
import Agmem.Store.Upgrade
import Agmem.Tools.Common
import Agmem.Tools.Remember
import Agmem.Tools.Reflect
import Agmem.Tools.Forget
import Agmem.Tools.Inspect
import Agmem.Tools.Reference
import Agmem.Tools.Doc
import Agmem.Tools.Server
import Agmem.Tools.Rows
import Agmem.Tools.Rules
import Agmem.Tools.Accounts
import Agmem.Tools.Evidence
import Agmem.Tools.Citing
import Agmem.Tools.Purge
import Agmem.Tools.Citations
import Agmem.Tools.Erasure
import Agmem.Tools.Titles
import Agmem.Tools.Versions
import Agmem.Tools.Registration
import Agmem.Tools.Occupancy
import Agmem.Tools.Displaced
import Agmem.Tools.Hop
import Agmem.Tools.Seeds
import Agmem.Tools.Abstain
import Agmem.Tools.Trim
import Agmem.Tools.Recall
import Agmem.Tools.Pages
import Agmem.Tools.Votes
import Agmem.Tools.Order
import Agmem.Tools.Listing
import Agmem.Tools.Contained
import Agmem.Tools.Context
import Agmem.Tools.Consolidate
import Agmem.Tools.Clusters
import Agmem.Tools.Windows
import Agmem.Tools.Grammar
import Agmem.Tools.Audit
import Agmem.Tools.Bare
import Agmem.Tools.Resources
import Agmem.Tools.Addresses
import Agmem.Tools.Components
import Agmem.Tools.Groups
import Agmem.Tools.Complete
import Agmem.Tools.Budget
import Agmem.Tools.Honest
import Agmem.Tools.Slots
import Agmem.Tools.Confirmation
import Agmem.Tools.Visibility
import Agmem.Tools.Surface
import Agmem.Tools.Contract
import Agmem.Daemon.Handshake
import Agmem.Gc.Plan
import Agmem.Gc.Named
import Agmem.Gc.Sound
import Agmem.Gc.Download
import Agmem.Gc.Kept
import Agmem.Gc.Freed
import Agmem.Daemon.Precedence
import Agmem.Daemon.Serve
import Agmem.Daemon.Retirement
import Agmem.Daemon.Answers
import Agmem.Daemon.Socket
import Agmem.Daemon.Wire
import Agmem.Hook.Log
import Agmem.Hook.Lines
import Agmem.Hook.FirstTime
import Agmem.Hook.Payload
import Agmem.Hook.Session
import Agmem.Tools.Reserve
import Agmem.Ranking.Labels
import Agmem.Tools.Mentions
import Agmem.Tools.OverFull
import Agmem.Embed.Passages
import Agmem.Embed.Api
import Agmem.Embed.Llama
import Agmem.Embed.Worker
import Agmem.Config.Space
import Agmem.Telemetry.Rotation
