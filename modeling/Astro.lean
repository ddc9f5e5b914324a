import Astro.Core.Serializer
import Astro.Core.SerializerLaws
import Astro.Core.Block
import Astro.Core.Pow
import Astro.Core.MerkleLaws
import Astro.Library.FileStream
import Astro.Storage.BlockStore
import Astro.Core.Chain
import Astro.Core.Validity
import Astro.Core.ChainRuns
import Astro.Core.BlockLaws
import Astro.Core.Commitment
import Astro.Storage.Codec
import Astro.Library.FramedLog
import Astro.Storage.Scan
import Astro.Storage.Append
import Astro.Storage.TornLog
import Astro.Storage.Persistence
import Astro.Storage.Sessions
import Astro.Core.MerklePaths
import Astro.Core.MerkleTrees
import Astro.Core.Building
import Astro.Core.Verdict
import Astro.Core.Miner
import Astro.Core.MinerLaws
import Astro.Library.Machine
import Astro.Tui.App
import Astro.Tui.Threads
import Astro.Tui.Moves
import Astro.Tui.Runs
import Astro.Tui.Mined
import Astro.Core.Signing
import Astro.Core.Threshold
import Astro.Core.Schema
import Astro.Storage.Canonical
import Astro.Storage.Bounds
import Astro.Storage.Restore
import Astro.Core.MerkleShape
import Astro.Storage.Truncation
import Astro.Library.Ledger
import Astro.Library.Simulation
import Astro.Tui.Effects
import Astro.Tui.Lifetimes
import Astro.Tui.Faults
import Astro.Tui.Keys
import Astro.Tui.Joins
import Astro.Tui.Provenance
import Astro.Core.Hex
import Astro.Core.Reports
import Astro.Cli.Process
import Astro.Cli.Store
import Astro.Core.Replay
import Astro.Storage.Damage
import Astro.Cli.Mine
import Astro.Cli.Node
import Astro.Cli.Demos
import Astro.Cli.Endings
import Astro.Core.Inclusion
import Astro.Storage.Lookalikes
import Astro.Cli.Data
import Astro.Storage.Writers
import Astro.Tui.LogView
import Astro.Tui.Keyboard
