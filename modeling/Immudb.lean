import Immudb.Lib.Bits
import Immudb.Lib.Bytes
import Immudb.Lib.MerkleTree
import Immudb.Lib.Hashing
import Immudb.Lib.Machine
import Immudb.Lib.Ring
import Immudb.Lib.Binary64
import Immudb.Appendable.Log
import Immudb.Appendable.Reader
import Immudb.Ahtree.Layout
import Immudb.Ahtree.Tree
import Immudb.Ahtree.Spec
import Immudb.Ahtree.Refinement
import Immudb.Ahtree.Verification
import Immudb.Ahtree.Paths
import Immudb.Ahtree.Proofs
import Immudb.Store.Tx
import Immudb.Store.PrecommitBuffer
import Immudb.Store.ImmuStore
import Immudb.Store.Verification
import Immudb.Store.Indexer
import Immudb.Store.Entry
import Immudb.Store.Codec
import Immudb.Store.Export
import Immudb.Store.TxLog
import Immudb.Htree.Tree
import Immudb.Htree.Proofs
import Immudb.Sql.Catalog
import Immudb.Store.Allowance
import Immudb.Database.Replication
import Immudb.Database.SortedSet
import Immudb.Sql.Values
import Immudb.Sql.Ranges
import Immudb.Sql.IndexScan
import Immudb.Sql.FloatKey
import Immudb.Tbtree.Node
import Immudb.Tbtree.Read
import Immudb.Tbtree.Flush
import Immudb.Tbtree.RoundTrip
import Immudb.Sql.Upsert
import Immudb.Sql.RowCodec
import Immudb.Sql.FileSort
import Immudb.Cache.Sieve
import Immudb.Sql.Functions
import Immudb.Stream.Receiver
import Immudb.Stream.StreamSet
import Immudb.Lib.Interleaving
import Immudb.Pgsql.Bind
import Immudb.Watchers.Hub
import Immudb.Watchers.Progress
