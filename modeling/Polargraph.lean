import Polargraph.Proofs.Storage.FirstCommitter
import Polargraph.Proofs.Replication.Replica
import Polargraph.Proofs.Server.Subscribe
import Polargraph.Proofs.Storage.GraphCopy
import Polargraph.Proofs.Server.Transactions
import Polargraph.Proofs.Server.ChangeEvents
import Polargraph.Proofs.Server.CypherReads
import Polargraph.Proofs.Rest.SparqlQuery
import Polargraph.Proofs.Rest.SparqlUpdate
import Polargraph.Proofs.Server.CypherMatch
import Polargraph.Proofs.Storage.HnswUpdate
import Polargraph.Proofs.Storage.HnswSearch
import Polargraph.Proofs.Storage.MigrateStore
import Polargraph.Proofs.Replication.ReplicaMemory
import Polargraph.Proofs.Storage.ValueJson
import Polargraph.Proofs.Storage.ChangeEntry
import Polargraph.Proofs.Rest.JsonLdValues
import Polargraph.Proofs.Query.CypherWhere
import Polargraph.Proofs.Query.JoinOrder
import Polargraph.Proofs.Rest.Protocol
import Polargraph.Proofs.Server.Vocabulary
import Polargraph.Proofs.Rest.Aggregates
import Polargraph.Proofs.Query.Reachable
import Polargraph.Proofs.Storage.LiveScan
import Polargraph.Proofs.Storage.TextSearch
import Polargraph.Proofs.Rest.SchemaRdf
import Polargraph.Proofs.Query.IndexChoice
import Polargraph.Proofs.Storage.Interning
import Polargraph.Proofs.Query.CypherEntry
import Polargraph.Proofs.Query.CypherLiterals
import Polargraph.Proofs.Storage.Registry
import Polargraph.Proofs.Shacl.Recursion
import Polargraph.Proofs.Storage.Counters
import Polargraph.Proofs.Server.ApiKeys
import Polargraph.Proofs.Server.RateLimit
import Polargraph.Proofs.Storage.OwlRl
