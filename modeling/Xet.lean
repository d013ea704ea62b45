import Xet.Auth.Grants
import Xet.Chunking
import Xet.Client.Download
import Xet.Client.ResolveURL
import Xet.Download.Accounting
import Xet.Download.MergeEviction
import Xet.HashText
import Xet.LruCache.Refines
import Xet.MerkleBalance
import Xet.Mirror.Ingest
import Xet.Mirror.Refetch
import Xet.Pipeline.Servable
import Xet.Download.Built
import Xet.Shard.Exact
import Xet.Storage.ListLimit
import Xet.Storage.SweepSteps
import Xet.Xorb.Agreement
import Xet.Xorb.Group
import Xet.Xorb.Grouping
import Xet.Xorb.ScanRange
import Xet.XorbMap.Safe
