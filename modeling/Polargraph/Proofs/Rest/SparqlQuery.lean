import Polargraph.Proofs.Server.Query
import Polargraph.Rest.SparqlQuery

/-! When the rows of a SPARQL query are those of one state of the store. -/

namespace Polargraph

namespace SparqlTranslation

section External

variable (ext : External) (arith : FloatArithmetic) (lib : TextLibrary)
  (translation : SparqlTranslation) (excludeInferred : Bool)

/-- The handler of a query at work while the service changes. -/
abbrev Answering := Client QueryServer ServiceCall.Answer (Except Status SparqlAnswer)

/-- The answer of a query is the one that a state it saw gives to the whole query. -/
def ReadsOneState (client : Answering) : Prop :=
  ∀ answer, client.rest = .done answer → ∃ server ∈ client.seen,
    (translation.executeSparqlQuery ext arith lib excludeInferred).run
      (QueryServer.answer ext server) = some answer

/-- Every change leaves the answers a query was given as they are, or those it still waits for. -/
def Undisturbed (client : Answering) (action : Client.Action ServiceChange) : Prop :=
  client.Harmless (QueryServer.answer ext) (QueryServer.changed ext) action

end External

variable {ext : External} {arith : FloatArithmetic} {lib : TextLibrary}
  {translation : SparqlTranslation} {excludeInferred : Bool}

/-- A query that no change disturbs reads one state. -/
theorem readsOneState_of_run {server : QueryServer} {client : Answering}
    (run : Runs (Client.step (QueryServer.answer ext) (QueryServer.changed ext)) (Undisturbed ext)
      (.start server (translation.executeSparqlQuery ext arith lib excludeInferred)) client) :
    translation.ReadsOneState ext arith lib excludeInferred client :=
  Client.fromOne_of_run run

/-- A library for queries without texts and doubles. -/
def noTexts : TextLibrary := ⟨fun _ => none, fun _ => "", fun _ _ _ => none⟩

/-- One of two relations holds between two variables. -/
def eitherRelation : SparqlTranslation where
  branches := [⟨[QueryServer.ends "urn:knows"], [], [], [], [], []⟩,
    ⟨[QueryServer.ends "urn:likes"], [], [], [], [], []⟩]
  projection := none
  distinct := false
  offset := 0
  limit := none
  isAsk := false
  groupBy := []
  orderBy := []
  aggregates := []
  havingFilter := none
  dataset := none
  graphVars := []

/-- A transaction that adds both relations. -/
def bothRelations : Transaction :=
  ((Transaction.new Timestamp.zero).insertIn (QueryServer.related 1 2 11 "urn:knows")
    GraphId.DEFAULT .auto).insertIn (QueryServer.related 3 4 12 "urn:likes") GraphId.DEFAULT .auto

/-- The number of rows of an answer. -/
def rowCount : Except Status SparqlAnswer → Option Nat
  | .ok (.rows _ rows _) => some rows.length
  | _ => none

/-- The rows an answer has where a handler stands, and in each state it saw. -/
def observed (client : Answering) : Option Nat × List (Option Nat) :=
  ((match client.rest with
    | .done answer => rowCount answer
    | .ask _ _ => none),
    client.seen.map fun server =>
      ((eitherRelation.executeSparqlQuery QueryServer.readerText QueryServer.noArithmetic noTexts
        false).run (QueryServer.answer QueryServer.readerText server)).bind rowCount)

/-- A commit between the parts of a union leaves rows that no state of the store has. -/
theorem union_torn :
    ∃ client, Runs (Client.step (QueryServer.answer QueryServer.readerText)
        (QueryServer.changed QueryServer.readerText)) (fun _ _ => True)
        (.start (QueryServer.answering TripleStore.create) (eitherRelation.executeSparqlQuery
          QueryServer.readerText QueryServer.noArithmetic noTexts false)) client ∧
      ¬ eitherRelation.ReadsOneState QueryServer.readerText QueryServer.noArithmetic noTexts false
        client := by
  -- The commit adds a row to each part, after the first part was read.
  have torn : (Runs.stepAll (Client.step (QueryServer.answer QueryServer.readerText)
      (QueryServer.changed QueryServer.readerText)) (fun _ _ => True)
      (.start (QueryServer.answering TripleStore.create) (eitherRelation.executeSparqlQuery
        QueryServer.readerText QueryServer.noArithmetic noTexts false))
      [.call, .change (.commit bothRelations (Timestamp.wrap 5)), .call, .call]).map observed =
        some (some 1, [some 2, some 0]) := by
    decide +kernel
  obtain ⟨client, steps, counts⟩ := Option.map_eq_some_iff.mp torn
  refine ⟨client, Runs.of_stepAll steps, ?_⟩
  intro reads
  obtain ⟨answered, states⟩ := Prod.mk.inj counts
  cases rest : client.rest with
  | ask question next =>
    rw [rest] at answered
    cases answered
  | done answer =>
    rw [rest] at answered
    obtain ⟨server, member, same⟩ := reads answer rest
    -- A state it saw would have given two rows or none.
    have counted := List.mem_map_of_mem (f := fun server =>
      ((eitherRelation.executeSparqlQuery QueryServer.readerText QueryServer.noArithmetic noTexts
        false).run (QueryServer.answer QueryServer.readerText server)).bind rowCount) member
    rw [states, same] at counted
    rw [show (some answer).bind rowCount = some 1 from answered] at counted
    simp at counted

/-- A query that starts after the commit reads one state. -/
theorem readsOneState_after_commit :
    ∃ client : Answering, observed client = (some 2, [some 2, some 0]) ∧
      eitherRelation.ReadsOneState QueryServer.readerText QueryServer.noArithmetic noTexts false
        client := by
  have whole : (Runs.stepAll (Client.step (QueryServer.answer QueryServer.readerText)
      (QueryServer.changed QueryServer.readerText)) (fun client action => client.apart action = true)
      (.start (QueryServer.answering TripleStore.create) (eitherRelation.executeSparqlQuery
        QueryServer.readerText QueryServer.noArithmetic noTexts false))
      [.change (.commit bothRelations (Timestamp.wrap 5)), .call, .call, .call]).map observed =
        some (some 2, [some 2, some 0]) := by
    decide +kernel
  obtain ⟨client, steps, counts⟩ := Option.map_eq_some_iff.mp whole
  exact ⟨client, counts, readsOneState_of_run
    ((Runs.of_stepAll steps).mono fun _ _ apart => Client.harmless_of_apart apart)⟩

end SparqlTranslation

end Polargraph
