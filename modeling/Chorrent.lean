import Chorrent.Lib.Run
import Chorrent.Lib.Checked
import Chorrent.Lib.Assoc
import Chorrent.Lib.Codec
import Chorrent.Scheduler.Basic
import Chorrent.Scheduler.Invariant
import Chorrent.Scheduler.Pick
import Chorrent.Scheduler.Runs
import Chorrent.Error
import Chorrent.Path
import Chorrent.Manifest.Basic
import Chorrent.Manifest.Confined
import Chorrent.Lib.Aead
import Chorrent.Storage.Basic
import Chorrent.Storage.Flat
import Chorrent.Storage.Refine
import Chorrent.Manifest.Layout
import Chorrent.Local.Basic
import Chorrent.Local.Read
import Chorrent.Local.Tamper
import Chorrent.Engine.Basic
import Chorrent.Engine.Effects
import Chorrent.Engine.Agreement
import Chorrent.Chunker.Basic
import Chorrent.Local.Download
import Chorrent.Chunker.Pieces
import Chorrent.Local.Prepare
import Chorrent.Local.Store
import Chorrent.Local.Restore
import Chorrent.Local.Integrity
import Chorrent.Chunker.Reference
import Chorrent.Local.Serve
import Chorrent.Lib.Text
import Chorrent.Store.Basic
import Chorrent.Store.Records
import Chorrent.Store.Access
import Chorrent.Store.Format
import Chorrent.Store.Reference
import Chorrent.Store.Tamper
import Chorrent.Store.View
import Chorrent.Store.Transparent
import Chorrent.Local.Resume
import Chorrent.Lib.Wrapping
import Chorrent.Manifest.Fetch
import Chorrent.Manifest.FromDisk
import Chorrent.Manifest.Seedable
import Chorrent.Handler.Basic
import Chorrent.Handler.Revoke
import Chorrent.Client.Allow
import Chorrent.Client.Finish
import Chorrent.Client.Forget
import Chorrent.Absolute
import Chorrent.Client.Dest
import Chorrent.Lib.Folders
import Chorrent.Manifest.Places
import Chorrent.Engine.Blame
import Chorrent.Handler.Probe
import Chorrent.Protocol.Stream
import Chorrent.Seed.Basic
import Chorrent.Engine.Swarm
import Chorrent.Lib.Versions
import Chorrent.Manifest.Listing
import Chorrent.Seed.Atomic
import Chorrent.Seed.Rehash
import Chorrent.Seed.Stamp
import Chorrent.Handler.Registry
import Chorrent.Limits
import Chorrent.Share.Code
import Chorrent.Share.Args
import Chorrent.Local.Export
import Chorrent.Storage.Runs
import Chorrent.Storage.Import
import Chorrent.Chunker.Import
import Chorrent.Seed.Ways
import Chorrent.Seed.Stream
import Chorrent.Seed.Failed
import Chorrent.Lib.Decimal
import Chorrent.Rate
import Chorrent.Client.Remove
import Chorrent.Lib.Potential
import Chorrent.Scheduler.Work
import Chorrent.Engine.Tasks
import Chorrent.Engine.Wake
import Chorrent.System.Network
import Chorrent.System.Delivery
import Chorrent.Engine.Flood
import Chorrent.Handler.Conform
import Chorrent.Engine.Search
import Chorrent.Local.Sessions
import Chorrent.System.Finished
import Chorrent.Discovery
import Chorrent.System.Complete
import Chorrent.System.Download
import Chorrent.Seed.Watch
