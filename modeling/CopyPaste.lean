import CopyPaste.Upload.Progress
import CopyPaste.Upload.Fence
import CopyPaste.Cloud.Pull
import CopyPaste.Cloud.Drain
import CopyPaste.Merge.Effects
import CopyPaste.Merge.Pages
import CopyPaste.Merge.Independence
import CopyPaste.Merge.Repin
import CopyPaste.Merge.PeerPage
import CopyPaste.Merge.PeerSerial
import CopyPaste.Merge.InstantClipboard
import CopyPaste.Cloud.Push
import CopyPaste.Lib.Guarded
import CopyPaste.Cloud.Fleet
import CopyPaste.Cloud.InSight
import CopyPaste.Peer.Cursor
import CopyPaste.Peer.Plan
import CopyPaste.Peer.Transfer
import CopyPaste.Peer.Session
import CopyPaste.Peer.Advertise
import CopyPaste.Peer.StoreSource
import CopyPaste.Peer.Relay
import CopyPaste.Peer.Overlap
import CopyPaste.Peer.Agree
import CopyPaste.Lib.Tables
import CopyPaste.Node.ActiveSync
import CopyPaste.Peers.Group
import CopyPaste.Peers.Store
import CopyPaste.Peers.Projection
import CopyPaste.Peers.Runs
import CopyPaste.Peers.Slots
import CopyPaste.Peers.Rekey
import CopyPaste.Peers.Ceremony
import CopyPaste.Peers.Commitment
import CopyPaste.Peers.Membership
import CopyPaste.Lib.Best
import CopyPaste.Peers.Join
import CopyPaste.Peers.Caps
import CopyPaste.Peers.Reopen
import CopyPaste.Lib.Gossip
import CopyPaste.Merge.Choices
import CopyPaste.Peer.Secrecy
import CopyPaste.Lib.Frames
import CopyPaste.Transport.Records
import CopyPaste.Lib.JsonFields
import CopyPaste.Wire.Messages
import CopyPaste.Wire.Typed
import CopyPaste.Wire.Codec
import CopyPaste.Wire.RoundTrip
import CopyPaste.History.Paging
import CopyPaste.Merge.CloudDelete
import CopyPaste.Lib.Spread
import CopyPaste.Peer.Pins
import CopyPaste.Peer.Backends
import CopyPaste.Peer.Workspaces
import CopyPaste.Peer.Interchange
import CopyPaste.Lib.Duplex
import CopyPaste.Peer.Roles
import CopyPaste.Peer.Lockstep
import CopyPaste.Peer.Meeting
import CopyPaste.Peer.Interrupted
import CopyPaste.Cloud.Refresh
import CopyPaste.Files.Tables
import CopyPaste.Files.Reseal
import CopyPaste.Files.Bodies
import CopyPaste.Files.Complete
import CopyPaste.Files.Download
import CopyPaste.Files.Serving
import CopyPaste.History.Ingest
import CopyPaste.History.Current
import CopyPaste.History.Recapture
import CopyPaste.History.Referenced
import CopyPaste.Merge.Onward
import CopyPaste.Organization.Records
import CopyPaste.Organization.Exact
import CopyPaste.Organization.Pinned
import CopyPaste.Capture.Foreground
import CopyPaste.Capture.Admission
import CopyPaste.Capture.Settings
import CopyPaste.Capture.Outlive
import CopyPaste.History.Outrank
import CopyPaste.History.Facets
import CopyPaste.History.PreviewCache
import CopyPaste.Peer.Watermark
import CopyPaste.Peer.Delivery
import CopyPaste.Peer.Accounts
import CopyPaste.Peer.Reading
import CopyPaste.Peer.Backlog
import CopyPaste.Merge.Absorb
import CopyPaste.Peer.Rewind
import CopyPaste.Peer.Uptake
import CopyPaste.Node.Pairing
import CopyPaste.Node.OneCeremony
import CopyPaste.Node.SlotRelease
import CopyPaste.Organization.Reorder
import CopyPaste.History.Retention
import CopyPaste.Lib.Drain
import CopyPaste.Peer.KeysetReads
import CopyPaste.History.Binary
import CopyPaste.History.BinaryReference
import CopyPaste.Wire.Owned
import CopyPaste.Cloud.RowSignature
import CopyPaste.Settings.Record
import CopyPaste.History.SearchQuery
import CopyPaste.History.SemanticWorkers
import CopyPaste.Modules.Consistency
import CopyPaste.History.FuzzySearch
import CopyPaste.History.WindowIndex
import CopyPaste.Redact.Leaks
