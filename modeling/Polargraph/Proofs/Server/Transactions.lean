import Polargraph.Server.Transactions

/-! A wire transaction commits what its calls buffered, unless a call uses it at the commit. -/

namespace Polargraph

variable {ext : External}

/-- A transaction has buffered what another has, after some more. -/
structure Transaction.Appended (earlier own whole : Transaction) : Prop where
  /-- Its writes come after. -/
  writes : whole.writes = earlier.writes ++ own.writes
  /-- So do its IRIs. -/
  iris : whole.iris = earlier.iris ++ own.iris

namespace Transaction.Appended

variable {earlier own whole : Transaction}

/-- Buffering a write comes after what was there. -/
theorem insertIn (appended : Appended earlier own whole) (triple : Triple) (g : GraphId)
    (mode : WriteMode) :
    Appended earlier (own.insertIn triple g mode) (whole.insertIn triple g mode) := by
  refine ⟨?_, appended.iris⟩
  simp only [Transaction.insertIn, appended.writes, List.append_assoc]

/-- Recording an IRI comes after what was there. -/
theorem bindIri (appended : Appended earlier own whole) (iri : String) :
    Appended earlier (own.bindIri iri) (whole.bindIri iri) := by
  refine ⟨appended.writes, ?_⟩
  simp only [Transaction.bindIri, appended.iris, List.append_assoc]

/-- What each step of a loop buffers comes after what was there. -/
theorem foldl {α : Type} {step : Transaction → α → Transaction}
    (each : ∀ item own whole, Appended earlier own whole →
      Appended earlier (step own item) (step whole item)) (items : List α)
    (appended : Appended earlier own whole) :
    Appended earlier (items.foldl step own) (items.foldl step whole) := by
  induction items generalizing own whole with
  | nil => exact appended
  | cons item rest ih => exact ih (each item own whole appended)

end Transaction.Appended

/-- A write came as far as another, in a transaction that had buffered something before. -/
structure WriteState.Resumed (earlier : Transaction) (own whole : WriteState) : Prop where
  /-- What it buffered comes after. -/
  tx : Transaction.Appended earlier own.tx whole.tx
  /-- The variables have the same nodes. -/
  bindings : whole.bindings = own.bindings
  /-- As many identifiers were drawn. -/
  draws : whole.draws = own.draws
  /-- It did the same. -/
  result : whole.result = own.result

namespace WriteContext

variable {context : WriteContext} {earlier : Transaction} {own whole : WriteState}

/-- Both writes end the same way, and as far. -/
def Together (earlier : Transaction) (own whole : WriteState × Except CypherWriteError Unit) : Prop :=
  WriteState.Resumed earlier own.1 whole.1 ∧ whole.2 = own.2

/-- Variables have the same nodes in both. -/
theorem boundNode_resumed (resumed : WriteState.Resumed earlier own whole) (var : String) :
    boundNode whole var = boundNode own var := by
  rw [boundNode, boundNode, resumed.bindings]

/-- Buffering a node comes after what was there. -/
theorem putNode_resumed (resumed : WriteState.Resumed earlier own whole) (node : NodeId)
    (label : Option String) (props : List (String × CypherValue)) :
    WriteState.Resumed earlier (context.putNode ext own node label props)
      (context.putNode ext whole node label props) := by
  have labelled : Transaction.Appended earlier (label.elim own.tx (context.putLabel ext own.tx node))
      (label.elim whole.tx (context.putLabel ext whole.tx node)) := by
    cases label with
    | none => exact resumed.tx
    | some name => exact (resumed.tx.bindIri _).insertIn _ _ _
  refine ⟨?_, resumed.bindings, resumed.draws, ?_⟩
  · refine labelled.foldl ?_ props
    intro prop left right appended
    exact appended.insertIn _ _ _
  · simp only [putNode, resumed.result]

/-- The same node is drawn in both. -/
theorem newNode_resumed (resumed : WriteState.Resumed earlier own whole) (named : Option NodeId) :
    WriteState.Resumed earlier (context.newNode own named).1 (context.newNode whole named).1 ∧
      (context.newNode whole named).2 = (context.newNode own named).2 := by
  cases named with
  | some node => exact ⟨resumed, rfl⟩
  | none =>
    refine ⟨⟨resumed.tx, resumed.bindings, ?_, resumed.result⟩, ?_⟩
    · simp only [newNode, resumed.draws]
    · simp only [newNode, resumed.draws]

/-- Creating a node goes the same way in both. -/
theorem created_resumed (resumed : WriteState.Resumed earlier own whole) (var : Option String)
    (named : Option NodeId) (label : Option String) (props : List (String × CypherValue)) :
    WriteState.Resumed earlier
      (bind (context.putNode ext (context.newNode own named).1 (context.newNode own named).2 label
        props) var (context.newNode own named).2)
      (bind (context.putNode ext (context.newNode whole named).1 (context.newNode whole named).2
        label props) var (context.newNode whole named).2) := by
  obtain ⟨drawn, same⟩ := @newNode_resumed context _ _ _ resumed named
  rw [same]
  have put := @putNode_resumed ext context _ _ _ drawn (context.newNode own named).2 label props
  exact ⟨put.tx, by simp only [bind, put.bindings], put.draws, put.result⟩

/-- Setting properties goes the same way in both. -/
theorem setAll_together (resumed : WriteState.Resumed earlier own whole) (clauses : List SetClause) :
    Together earlier (context.setAll own clauses) (context.setAll whole clauses) := by
  induction clauses generalizing own whole with
  | nil => exact ⟨resumed, rfl⟩
  | cons clause rest ih =>
    simp only [setAll, boundNode_resumed resumed]
    cases boundNode own clause.var with
    | error problem => exact ⟨resumed, rfl⟩
    | ok node => exact ih ⟨resumed.tx.insertIn _ _ _, resumed.bindings, resumed.draws,
        by simp only [resumed.result]⟩

/-- Closing the triples of nodes goes the same way in both. -/
theorem deleteAll_together (resumed : WriteState.Resumed earlier own whole) (vars : List String) :
    Together earlier (context.deleteAll ext own vars) (context.deleteAll ext whole vars) := by
  induction vars generalizing own whole with
  | nil => exact ⟨resumed, rfl⟩
  | cons var rest ih =>
    simp only [deleteAll, boundNode_resumed resumed]
    cases boundNode own var with
    | error problem => exact ⟨resumed, rfl⟩
    | ok node =>
      simp only
      split
      · exact ⟨resumed, rfl⟩
      · rename_i quads _
        refine ih ⟨resumed.tx.foldl ?_ quads, resumed.bindings, resumed.draws, ?_⟩
        · intro quad left right appended
          exact appended.insertIn _ _ _
        · simp only [resumed.result]

/-- An operation goes the same way in both. -/
theorem executeOp_together (resumed : WriteState.Resumed earlier own whole) (op : Cypher.WriteOp) :
    Together earlier (context.executeOp ext own op) (context.executeOp ext whole op) := by
  cases op with
  | createNode var label props =>
    simp only [executeOp]
    split
    · exact ⟨resumed, rfl⟩
    · exact ⟨created_resumed resumed var _ label props, rfl⟩
  | createRelation subjectVar predicate objectVar =>
    simp only [executeOp, boundNode_resumed resumed]
    split
    · exact ⟨resumed, rfl⟩
    · exact ⟨resumed, rfl⟩
    · refine ⟨⟨?_, resumed.bindings, ?_, ?_⟩, rfl⟩
      · rw [resumed.draws]
        exact resumed.tx.insertIn _ _ _
      · simp only [resumed.draws]
      · simp only [resumed.result]
  | merge var label props =>
    simp only [executeOp]
    split
    · exact ⟨resumed, rfl⟩
    · split
      · exact ⟨resumed, rfl⟩
      · exact ⟨⟨resumed.tx, by simp only [bind, resumed.bindings], resumed.draws, resumed.result⟩, rfl⟩
      · exact ⟨created_resumed resumed var _ label props, rfl⟩
  | set clauses => exact setAll_together resumed clauses
  | delete vars => exact deleteAll_together resumed vars

/-- Operations go the same way in both. -/
theorem executeWriteOpsIn_together (resumed : WriteState.Resumed earlier own whole)
    (ops : List Cypher.WriteOp) : Together earlier (context.executeWriteOpsIn ext own ops)
      (context.executeWriteOpsIn ext whole ops) := by
  induction ops generalizing own whole with
  | nil => exact ⟨resumed, rfl⟩
  | cons op rest ih =>
    obtain ⟨here, same⟩ := @executeOp_together ext context _ _ _ resumed op
    simp only [executeWriteOpsIn]
    generalize context.executeOp ext own op = left at here same
    generalize context.executeOp ext whole op = right at here same
    obtain ⟨own', result⟩ := left
    obtain ⟨whole', result'⟩ := right
    cases same
    cases result with
    | error problem => exact ⟨here, rfl⟩
    | ok _ => exact ih here

/-- Rows go the same way in both. -/
theorem executeRows_together (resumed : WriteState.Resumed earlier own whole)
    (ops : List Cypher.WriteOp) (rows : List Bindings) : Together earlier
      (context.executeRows ext ops own rows) (context.executeRows ext ops whole rows) := by
  induction rows generalizing own whole with
  | nil => exact ⟨resumed, rfl⟩
  | cons row rest ih =>
    have start : WriteState.Resumed earlier { own with bindings := row }
        { whole with bindings := row } := ⟨resumed.tx, rfl, resumed.draws, resumed.result⟩
    obtain ⟨here, same⟩ := @executeWriteOpsIn_together ext context _ _ _ start ops
    simp only [executeRows]
    generalize context.executeWriteOpsIn ext { own with bindings := row } ops = left at here same
    generalize context.executeWriteOpsIn ext { whole with bindings := row } ops = right at here same
    obtain ⟨own', result⟩ := left
    obtain ⟨whole', result'⟩ := right
    cases same
    cases result with
    | error problem => exact ⟨here, rfl⟩
    | ok _ => exact ih here

end WriteContext

/-- The context a Cypher write runs in. -/
def CypherWrite.context (write : CypherWrite) (store : TripleStore) (readTs now : Timestamp) :
    WriteContext :=
  ⟨store, ⟨readTs, none, write.readable⟩, write.prefixes, write.graph, write.drawn, now⟩

/-- The transaction after a Cypher write, whether it succeeds or not. -/
theorem CypherWrite.tx_executeWrites (write : CypherWrite) (store : TripleStore) (now : Timestamp)
    (tx : Transaction) : (write.executeWrites ext store now tx).1 =
      match write.matched.elim (.ok [[]])
        (fun rows => rows store ⟨tx.readTs, none, write.readable⟩ now) with
      | .error _ => tx
      | .ok rows => ((write.context store tx.readTs now).executeRows ext write.ops
          ⟨tx, [], 0, ⟨[], 0, 0⟩⟩ rows).1.tx := by
  simp only [executeWrites, context]
  cases write.matched.elim (.ok [[]])
      (fun rows => rows store ⟨tx.readTs, none, write.readable⟩ now) with
  | error refused => rfl
  | ok rows =>
    simp only
    split <;> rename_i ended <;> rw [ended]

/-- A Cypher write buffers its own writes after those that were there. -/
theorem CypherWrite.buffered_executeWrites (write : CypherWrite) (store : TripleStore)
    (now : Timestamp) (tx : Transaction) :
    (write.executeWrites ext store now tx).1.buffered =
      Buffered.concat [tx.buffered, write.effect ext store now tx.readTs] := by
  have start : WriteState.Resumed tx ⟨Transaction.new tx.readTs, [], 0, ⟨[], 0, 0⟩⟩
      ⟨tx, [], 0, ⟨[], 0, 0⟩⟩ :=
    ⟨⟨(List.append_nil _).symm, (List.append_nil _).symm⟩, rfl, rfl, rfl⟩
  suffices appended : Transaction.Appended tx
      (write.executeWrites ext store now (Transaction.new tx.readTs)).1
      (write.executeWrites ext store now tx).1 by
    simp [effect, Buffered.concat, Transaction.buffered, appended.writes, appended.iris]
  rw [tx_executeWrites, tx_executeWrites]
  simp only [Transaction.new]
  cases write.matched.elim (.ok [[]])
      (fun rows => rows store ⟨tx.readTs, none, write.readable⟩ now) with
  | error refused => exact start.tx
  | ok rows => exact (WriteContext.executeRows_together start write.ops rows).1.tx

/-- An insert buffers its own writes after those that were there. -/
theorem Transaction.buffered_insertAll (tx : Transaction) (author : String)
    (writes : List PendingWrite) (iris : List String) :
    ((tx.insertAll author writes).bindAll iris).buffered =
      Buffered.concat [tx.buffered, ⟨writes, iris⟩] := by
  have insert : ∀ (writes : List PendingWrite) (tx : Transaction),
      (tx.insertAll author writes).writes = tx.writes ++ writes ∧
        (tx.insertAll author writes).iris = tx.iris := by
    intro writes
    induction writes with
    | nil => exact fun tx => ⟨(List.append_nil _).symm, rfl⟩
    | cons w rest ih =>
      intro tx
      obtain ⟨appended, same⟩ := ih ((tx.setAuthor author).insertIn w.triple w.graph w.mode)
      refine ⟨?_, same⟩
      rw [show (tx.insertAll author (w :: rest)).writes = _ from appended]
      simp [insertIn, setAuthor]
  have bind : ∀ (iris : List String) (tx : Transaction),
      (tx.bindAll iris).writes = tx.writes ∧ (tx.bindAll iris).iris = tx.iris ++ iris := by
    intro iris
    induction iris with
    | nil => exact fun tx => ⟨rfl, (List.append_nil _).symm⟩
    | cons iri rest ih =>
      intro tx
      obtain ⟨same, appended⟩ := ih (tx.bindIri iri)
      refine ⟨same, ?_⟩
      rw [show (tx.bindAll (iri :: rest)).iris = _ from appended]
      simp [bindIri]
  simp [Buffered.concat, buffered, (bind iris _).1, (bind iris _).2, (insert writes tx).1,
    (insert writes tx).2]

namespace Wire

/-- What the call that holds the lock has buffered, unless it failed. -/
def unacknowledged (wire : Wire) : List Buffered :=
  match wire.written with
  | some (.ok buffered) => [buffered]
  | _ => []

/--
A step keeps a wire transaction whole.

A commit unwraps a handle that no call holds a clone of, and a Cypher write that fails has buffered
nothing.
-/
def Whole (ext : External) (wire : Wire) : WireStep → Prop
  | .commitUnwrap _ => wire.handles = []
  | .cypherBuffer _ write now =>
    (write.executeWrites ext wire.store now (wire.tx.setAuthor write.author)).2.isOk = true ∨
      (write.effect ext wire.store now wire.tx.readTs).writes = [] ∧
        (write.effect ext wire.store now wire.tx.readTs).iris = []
  | _ => True

/-- What clients may rely on, in terms of whether a rollback was acknowledged and how commits ended. -/
structure AllOrNothing (rolledBack : Bool) (commits : List CommitEnd) : Prop where
  /-- A successful commit commits exactly what the calls acknowledged before had buffered. -/
  exact_ : ∀ ended ∈ commits, ended.succeeded = true →
    ended.buffered = Buffered.concat ended.acked
  /-- At most one commit succeeds. -/
  once : (commits.filter CommitEnd.succeeded).length ≤ 1
  /-- No commit succeeds when a rollback was acknowledged. -/
  discarded : rolledBack = true → ∀ ended ∈ commits, ended.succeeded = false
  /-- A commit that fails for another reason than the store leaves the transaction open and whole. -/
  kept : ∀ ended ∈ commits, ∀ code text, ended.result = .error (.status code text) →
    ended.isOpen = true ∧ ended.buffered = Buffered.concat ended.acked

/-- What holds of a wire transaction that is kept whole. -/
structure Kept (wire : Wire) : Prop where
  /-- It has buffered what the acknowledged calls and the one that holds the lock did. -/
  buffered : wire.tx.buffered = Buffered.concat (wire.acked ++ wire.unacknowledged)
  /-- A call that holds the lock holds a reference or a clone. -/
  held : ∀ call, wire.lock = some call → call ∈ wire.refs ++ wire.handles
  /-- Only a call that holds the lock has buffered something unacknowledged. -/
  idle : wire.lock = none → wire.written = none
  /-- References are into the map. -/
  referenced : wire.mapped = false → wire.refs = []
  /-- While it is open, no commit has found it. -/
  unended : wire.mapped = true → wire.removed = false ∧ wire.rolledBack = false ∧ wire.commits = []
  /-- While a commit is about to unwrap it, nothing has ended it. -/
  unwrapped : wire.removed = true → wire.rolledBack = false ∧ wire.commits = []
  /-- A rollback leaves nothing to commit. -/
  rolledBack : wire.rolledBack = true → wire.commits = []
  /-- It is all or nothing. -/
  allOrNothing : AllOrNothing wire.rolledBack wire.commits
  /-- At most one commit finds it. -/
  single : wire.commits.length ≤ 1

/-- A transaction that was just begun is kept whole. -/
theorem kept_opened (store : TripleStore) (now : Timestamp) : (opened store now).Kept where
  buffered := rfl
  held _ held := by cases held
  idle _ := rfl
  referenced absent := by cases absent
  unended _ := ⟨rfl, rfl, rfl⟩
  unwrapped removed := by cases removed
  rolledBack discarded := by cases discarded
  allOrNothing := ⟨by simp [opened], by simp [opened], by simp [opened], by simp [opened]⟩
  single := Nat.zero_le _

/-- Taking a transaction out of its handle keeps it whole when no call holds a clone. -/
theorem Kept.unwrap {wire : Wire} (kept : wire.Kept) (removed : wire.removed = true)
    (sole : wire.handles = []) (wall : Timestamp) : (wire.unwrap ext wall).Kept := by
  have unmapped : wire.mapped = false := by
    cases mapped : wire.mapped with
    | false => rfl
    | true =>
      rw [(kept.unended mapped).1] at removed
      cases removed
  -- Nobody holds the lock, so everything buffered is acknowledged.
  have unlocked : wire.lock = none := by
    cases lock : wire.lock with
    | none => rfl
    | some call =>
      have member := kept.held call lock
      rw [kept.referenced unmapped, sole] at member
      cases member
  have whole : wire.tx.buffered = Buffered.concat wire.acked := by
    rw [kept.buffered, unacknowledged, kept.idle unlocked, List.append_nil]
  obtain ⟨not_rolled, none_ended⟩ := kept.unwrapped removed
  rw [Wire.unwrap, if_pos sole]
  generalize wire.store.commit ext wire.tx wall = committed
  obtain ⟨store, result⟩ := committed
  simp only [none_ended, List.nil_append]
  refine ⟨kept.buffered, kept.held, kept.idle, kept.referenced, fun mapped => ?_, fun again => ?_,
    fun rolled => ?_, ⟨fun ended member _ => ?_, ?_, fun rolled => ?_, fun ended member code text refused => ?_⟩,
    le_refl 1⟩
  · rw [show wire.mapped = true from mapped] at unmapped
    cases unmapped
  · cases again
  · rw [show wire.rolledBack = true from rolled] at not_rolled
    cases not_rolled
  · rw [List.mem_singleton.mp member]
    exact whole
  · exact le_trans (List.length_filter_le _ _) (le_refl 1)
  · rw [show wire.rolledBack = true from rolled] at not_rolled
    cases not_rolled
  · rw [List.mem_singleton.mp member] at refused
    cases result <;> cases refused

/-- Every step that keeps the transaction whole keeps it so. -/
theorem Kept.next {wire after : Wire} (kept : wire.Kept) {step : WireStep}
    (whole : wire.Whole ext step) (taken : wire.next ext step = some after) : after.Kept := by
  cases step with
  | insertLookUp call =>
    simp only [Wire.next, Option.ite_none_right_eq_some, Option.some.injEq] at taken
    obtain ⟨⟨mapped, _⟩, rfl⟩ := taken
    refine { kept with held := fun other lock => ?_, referenced := fun unmapped => ?_ }
    · exact List.mem_cons_of_mem _ (kept.held other lock)
    · rw [show wire.mapped = false from unmapped] at mapped
      cases mapped
  | cypherLookUp call =>
    simp only [Wire.next, Option.ite_none_right_eq_some, Option.some.injEq] at taken
    obtain ⟨_, rfl⟩ := taken
    refine { kept with held := fun other lock => ?_ }
    have member := List.mem_append.mp (kept.held other lock)
    exact List.mem_append.mpr (member.imp_right (List.mem_cons_of_mem _))
  | acquire call =>
    simp only [Wire.next, Option.ite_none_right_eq_some, Option.some.injEq] at taken
    obtain ⟨⟨unlocked, member⟩, rfl⟩ := taken
    refine { kept with held := fun other lock => ?_, idle := fun lock => ?_ }
    · cases lock
      exact member
    · cases lock
  | insertBuffer call author writes iris now =>
    simp only [Wire.next, Option.ite_none_right_eq_some, Option.some.injEq] at taken
    obtain ⟨⟨lock, _, fresh⟩, rfl⟩ := taken
    refine { kept with buffered := ?_, idle := fun unlocked => ?_ }
    · have before := kept.buffered
      rw [unacknowledged, Option.isNone_iff_eq_none.mp fresh] at before
      simp [Transaction.buffered_insertAll, before, unacknowledged, Buffered.concat]
    · rw [show wire.lock = none from unlocked] at lock
      cases lock
  | cypherBuffer call write now =>
    simp only [Wire.next, Option.ite_none_right_eq_some] at taken
    obtain ⟨⟨lock, _, fresh⟩, taken⟩ := taken
    have before := kept.buffered
    rw [unacknowledged, Option.isNone_iff_eq_none.mp fresh] at before
    have own := @CypherWrite.buffered_executeWrites ext write wire.store now
      (wire.tx.setAuthor write.author)
    have author : (wire.tx.setAuthor write.author).buffered = wire.tx.buffered := rfl
    rw [author, before] at own
    have unlocked : wire.lock ≠ none := by
      rw [lock]
      exact Option.some_ne_none call
    split at taken
    · -- A write that fails has buffered nothing.
      rename_i tx refused failed
      cases taken
      rw [failed] at own
      rcases whole with fine | ⟨writes, iris⟩
      · rw [failed] at fine
        cases fine
      · refine { kept with buffered := ?_, idle := fun lock => absurd lock unlocked }
        rw [show tx.buffered = _ from own]
        simp [unacknowledged, Buffered.concat, Transaction.setAuthor, writes, iris]
    · rename_i tx result done
      cases taken
      rw [done] at own
      refine { kept with buffered := ?_, idle := fun lock => absurd lock unlocked }
      rw [show tx.buffered = _ from own]
      simp [unacknowledged, Buffered.concat, Transaction.setAuthor]
  | respond call =>
    simp only [Wire.next, Option.ite_none_right_eq_some] at taken
    obtain ⟨lock, taken⟩ := taken
    split at taken
    · cases taken
    · rename_i result written
      cases taken
      refine { kept with
        buffered := ?_, held := fun other lock => ?_, idle := fun _ => rfl,
        referenced := fun unmapped => ?_ }
      · rw [kept.buffered]
        simp only [unacknowledged, written, List.append_nil]
        cases result <;> rfl
      · cases lock
      · rw [kept.referenced unmapped]
        rfl
  | commitRemove =>
    simp only [Wire.next, Option.ite_none_right_eq_some, Option.some.injEq] at taken
    obtain ⟨⟨mapped, unreferenced⟩, rfl⟩ := taken
    exact { kept with
      referenced := fun _ => unreferenced
      unended := fun again => by cases again
      unwrapped := fun _ => (kept.unended mapped).2 }
  | commitUnwrap wall =>
    simp only [Wire.next, Option.ite_none_right_eq_some, Option.some.injEq] at taken
    obtain ⟨removed, rfl⟩ := taken
    exact kept.unwrap removed whole wall
  | rollback =>
    simp only [Wire.next, Option.ite_none_right_eq_some, Option.some.injEq] at taken
    obtain ⟨⟨mapped, unreferenced⟩, rfl⟩ := taken
    obtain ⟨unremoved, _, none_ended⟩ := kept.unended mapped
    refine { kept with
      referenced := fun _ => unreferenced
      unended := fun again => by cases again
      unwrapped := fun removed => ?_
      rolledBack := fun _ => none_ended
      allOrNothing := ?_ }
    · rw [show wire.removed = true from removed] at unremoved
      cases unremoved
    · have old := kept.allOrNothing
      refine ⟨old.exact_, old.once, fun _ ended member => ?_, old.kept⟩
      rw [show wire.commits = [] from none_ended] at member
      cases member
  | sweepSelect now idleTimeout =>
    simp only [Wire.next, Option.ite_none_right_eq_some, Option.some.injEq] at taken
    obtain ⟨_, rfl⟩ := taken
    exact { kept with }
  | sweepRemove =>
    simp only [Wire.next, Option.ite_none_right_eq_some, Option.some.injEq] at taken
    obtain ⟨⟨_, unreferenced⟩, rfl⟩ := taken
    exact { kept with
      referenced := fun _ => unreferenced
      unended := fun again => by cases again }
  | other tx wall =>
    cases taken
    exact { kept with }

/-- A relation between two nodes, as a write to the default graph. -/
def relationWrite : PendingWrite :=
  ⟨.relation (NodeId.ofByte 1) "knows" (NodeId.ofByte 2) ⟨(NodeId.ofByte 3).uuid⟩
    ⟨Timestamp.zero, Timestamp.END_OF_TIME, Timestamp.zero⟩, GraphId.DEFAULT, .auto⟩

/-- An insert that buffers the relation and is acknowledged. -/
def insertSteps : List WireStep :=
  [.insertLookUp 0, .acquire 0, .insertBuffer 0 "" [relationWrite] [] (Timestamp.wrap 2), .respond 0]

/-- A Cypher write that creates a typed node and then deletes a variable that has no node. -/
def createThenDelete : CypherWrite :=
  ⟨"", none, none, [.createNode none (some "Person") [], .delete ["m"]], none, fun _ => none,
    fun _ => (NodeId.ofByte 4).uuid, fun _ => ""⟩

/-- The transaction after some steps on a new store. -/
def ran (steps : List WireStep) : Option Wire :=
  Runs.stepAll (next External.unreached) (fun _ _ => True) (opened TripleStore.create (Timestamp.wrap 1))
    steps

/-- The transaction after some steps that a run can take. -/
theorem exists_ran {steps : List WireStep} {α : Type} {view : Wire → α} {seen : α}
    (shown : (ran steps).map view = some seen) :
    ∃ wire, Runs (next External.unreached) (fun _ _ => True)
      (opened TripleStore.create (Timestamp.wrap 1)) wire ∧ view wire = seen := by
  obtain ⟨wire, taken, same⟩ := Option.map_eq_some_iff.mp shown
  exact ⟨wire, Runs.of_stepAll taken, same⟩

/-- What a commit came to, whether it left the transaction open, and how much it had to commit. -/
def CommitEnd.seen (ended : CommitEnd) : Except Status Nat × Bool × Nat × Nat :=
  (ended.result, ended.isOpen, ended.acked.length, ended.buffered.writes.length)

end Wire

end Polargraph
