import Summ.Core.Digest
import Summ.Core.Keys
import Summ.Core.Schema
import Summ.Core.Suffixes
import Summ.Core.Types
import Summ.Lib.Base64
import Summ.Lib.Bytes
import Summ.Lib.Fields
import Summ.Lib.Grace
import Summ.Lib.Labelled
import Summ.Lib.Listing
import Summ.Lib.Lru
import Summ.Lib.OrderedMap
import Summ.Lib.Paging
import Summ.Lib.Pool
import Summ.Lib.Regular
import Summ.Lib.Runs
import Summ.Lib.Sections
import Summ.Lib.Simulation
import Summ.Lib.Texts
import Summ.Lib.Thread
import Summ.Lib.Transition
import Summ.Meta.Batches
import Summ.Meta.Cursor
import Summ.Meta.Engine
import Summ.Meta.Groups
import Summ.Meta.Interner
import Summ.Meta.Redb
import Summ.Meta.Rocks
import Summ.Meta.Version
import Summ.Names.Cache
import Summ.Names.Lives
import Summ.Names.Maps
import Summ.Names.Requests
import Summ.Names.Steps
import Summ.Names.Sweep
import Summ.Purge.Layers
import Summ.Purge.Marks
import Summ.Purge.Uploads
import Summ.Registry.Bodies
import Summ.Registry.Children
import Summ.Registry.Counters
import Summ.Registry.Delete
import Summ.Registry.DigestText
import Summ.Registry.Discovery
import Summ.Registry.Error
import Summ.Registry.Frames
import Summ.Registry.Manifest
import Summ.Registry.Memberships
import Summ.Registry.Newest
import Summ.Registry.Operations
import Summ.Registry.Pages
import Summ.Registry.Purge
import Summ.Registry.Push
import Summ.Registry.Queries
import Summ.Registry.Reference
import Summ.Registry.Referrers
import Summ.Registry.Sessions
import Summ.Registry.State
import Summ.Registry.TagIndex
import Summ.Registry.Tags
import Summ.Registry.Tallies
import Summ.Registry.TotalSize
import Summ.Registry.Windows
import Summ.Serial.Answers
import Summ.Serial.BlobLock
import Summ.Serial.Calls
import Summ.Serial.Catalog
import Summ.Serial.Clocked
import Summ.Serial.Coherence
import Summ.Serial.Deletes
import Summ.Serial.Edges
import Summ.Serial.Edits
import Summ.Serial.Effects
import Summ.Serial.Histories
import Summ.Serial.IdCache
import Summ.Serial.Isolation
import Summ.Serial.Justified
import Summ.Serial.Listings
import Summ.Serial.Locality
import Summ.Serial.Planned
import Summ.Serial.Pulls
import Summ.Serial.Reads
import Summ.Serial.References
import Summ.Serial.Refinement
import Summ.Serial.Refusals
import Summ.Serial.Retiring
import Summ.Serial.Servable
import Summ.Serial.TagKeys
import Summ.Serial.TagLock
import Summ.Serial.TagPushes
import Summ.Serial.Walks
import Summ.Server.Access
import Summ.Server.ApiKeys
import Summ.Server.Auth
import Summ.Server.Chunks
import Summ.Server.Counters
import Summ.Server.Details
import Summ.Server.Grammars
import Summ.Server.Headers
import Summ.Server.Pagination
import Summ.Server.PullCounts
import Summ.Server.Query
import Summ.Server.Ranges
import Summ.Server.Routes
import Summ.Server.Tallies
import Summ.Storage.Expiry
import Summ.Storage.Immutable
import Summ.Storage.Moves
import Summ.Storage.Paths
import Summ.Storage.Resume
import Summ.Storage.Sequential
import Summ.Storage.Spellings
import Summ.Storage.Streams
import Summ.Storage.UploadIds
import Summ.Storage.Uploads
