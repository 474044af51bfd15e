import Polargraph.Lib.Bitemporal
import Polargraph.Storage.Mvcc

/-! What the eight orders are for: one set of versions, read as bitemporal histories. -/

namespace Polargraph

/-- The versions a quad index holds, whatever the order of its keys. -/
abbrev Index := QuadKey → Option Bytes

namespace Index

/-- Store one version. -/
def put (index : Index) (quad : StagedQuad) : Index :=
  Function.update index quad.key (some quad.value)

/-- Store versions one after another. -/
def putAll (index : Index) (quads : List StagedQuad) : Index := quads.foldl put index

/-- The versions of one quad by transaction time, those without a readable window left out. -/
def history (index : Index) (ids : QuadIds) : History Timestamp Bytes := fun tt =>
  (index ⟨ids, tt⟩).bind fun bytes =>
    (validTime bytes).map fun window => ⟨window.1, window.2, bytes⟩

end Index

namespace Db

/-- The versions a database holds, read from its leading order. -/
def index (db : Db) : Index := fun key => db.get (.quads .spog) (Order.spog.encode key)

/-- The versions one order holds. -/
def orderIndex (db : Db) (order : Order) : Index := fun key => db.get (.quads order) (order.encode key)

/-- One order holds exactly the encodings of a set of versions. -/
def OrderHolds (db : Db) (order : Order) (index : Index) : Prop :=
  ∀ key value, (key, value) ∈ (db.family (.quads order)).entries ↔
    ∃ quad, key = order.encode quad ∧ index quad = some value

/-- All eight orders hold exactly the encodings of one set of versions. -/
def OrdersHold (db : Db) (index : Index) : Prop := ∀ order, db.OrderHolds order index

end Db

namespace TripleStore

/-- The versions a store holds. -/
def index (store : TripleStore) : Index := store.db.index

/-- Stores reachable from a new one by commits and explicitly timed insertions. -/
inductive Reachable (ext : External) : TripleStore → Prop
  /-- A new store, whatever its inline threshold and vocabulary. -/
  | create (inlineMax : Nat) (vocabulary : Vocabulary) (canonical : Bool) : Reachable ext
      (configured inlineMax vocabulary canonical)
  /-- A transaction commits, or fails to. -/
  | commit {store : TripleStore} (tx : Transaction) (wall : Timestamp) : Reachable ext store →
      Reachable ext (store.commit ext tx wall).1
  /-- A triple is inserted at an explicit transaction time, or fails to be. -/
  | insertAtTs {store : TripleStore} (triple : Triple) (tt : Timestamp) : Reachable ext store →
      Reachable ext (store.insertAtTs ext triple tt).1
  /-- A graph IRI is interned. -/
  | internGraph {store after : TripleStore} {iri : String} {g : GraphId} : Reachable ext store →
      store.internGraph ext iri = .ok (after, g) → Reachable ext after

/-- A quad the reader of a scoped scan asks for and may see. -/
structure Wanted (store : TripleStore) (s : Option NodeId) (predicate : Option String)
    (o : Option NodeId) (scope : GraphScope) (point : ReadAt) (ids : QuadIds) : Prop where
  /-- A bound subject agrees. -/
  subject : ∀ node, s = some node → ids.s = node
  /-- A bound predicate name is interned as the quad's predicate. -/
  predicate : ∀ name, predicate = some name → store.predicateId name = some ids.p
  /-- A bound object slot agrees. -/
  object : ∀ node, o = some node → ids.o = node
  /-- The scope admits the graph. -/
  scope : scope.admits ids.g = true
  /-- The reader may see the graph. -/
  readable : point.canRead ids.g = true

/--
A scoped scan answers as the naive read does.

It returns the wanted quads that are live, each once, each rebuilt from its governing version.
-/
def RefinesNaiveRead (ext : External) (store : TripleStore) (s : Option NodeId)
    (predicate : Option String) (o : Option NodeId) (scope : GraphScope) (point : ReadAt)
    (now : Timestamp) : Prop :=
  ∃ quads : List (QuadIds × Triple),
    store.scanScopedAt ext s predicate o scope point now =
      .ok (quads.map (fun quad => (quad.1.g, quad.2))) ∧
    (quads.map Prod.fst).Nodup ∧
    (∀ ids, ids ∈ quads.map Prod.fst ↔ store.Wanted s predicate o scope point ids ∧
      (store.index.history ids).Live point.ts (point.vtAsOf.getD now)) ∧
    ∀ ids triple, (ids, triple) ∈ quads → ∃ tt version,
      (store.index.history ids).Governs point.ts (point.vtAsOf.getD now) tt version ∧
      store.reconstruct ext ids.s ids.p ids.o tt version.content = .ok triple

end TripleStore

end Polargraph
