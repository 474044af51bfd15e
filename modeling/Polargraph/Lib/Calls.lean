import Polargraph.Lib.Machine
import Mathlib.Data.List.Basic

/-! Clients that ask a service one question after another while the service changes. -/

/-- A client that is finished, or asks a question and goes on with the answer. -/
inductive Calls {Q : Type} (A : Q → Type) (R : Type) : Type where
  /-- The client has its result. -/
  | done (result : R)
  /-- The client waits for the answer to a question. -/
  | ask (question : Q) (next : A question → Calls A R)

namespace Calls

variable {Q : Type} {A : Q → Type} {R S : Type}

/-- Go on with the result of a client. -/
def bind : Calls A R → (R → Calls A S) → Calls A S
  | done result, continue_with => continue_with result
  | ask question next, continue_with => ask question fun answer => (next answer).bind continue_with

instance : Monad (Calls A) where
  pure := done
  bind := bind

/-- Ask one question. -/
def call (question : Q) : Calls A (A question) := ask question done

/-- Whether a client has its result. -/
def isDone : Calls A R → Bool
  | done _ => true
  | ask _ _ => false

/-- The result when one service gives all the answers, nothing when it leaves a question open. -/
def run (answer : ∀ question, Option (A question)) : Calls A R → Option R
  | done result => some result
  | ask question next =>
    match answer question with
    | none => none
    | some given => (next given).run answer

/-- The questions asked when one service gives all the answers. -/
def asked (answer : ∀ question, Option (A question)) : Calls A R → List Q
  | done _ => []
  | ask question next => question ::
    match answer question with
    | none => []
    | some given => (next given).asked answer

/-- A client gives the same result to services that answer what it asks alike. -/
theorem run_congr {left right : ∀ question, Option (A question)} {client : Calls A R}
    (alike : ∀ question ∈ client.asked left, right question = left question) :
    client.run right = client.run left := by
  induction client with
  | done result => rfl
  | ask question next ih =>
    rw [asked] at alike
    have first : right question = left question := alike question List.mem_cons_self
    rw [run, run, first]
    cases given : left question with
    | none => rfl
    | some answer =>
      apply ih answer
      intro other member
      apply alike other
      rw [given]
      exact List.mem_cons_of_mem _ member

/-- Some answers lead a client to what is left of it. -/
inductive Follows (whole : Calls A R) : List (Sigma A) → Calls A R → Prop
  /-- Nothing was asked. -/
  | start : Follows whole [] whole
  /-- One more answer was given. -/
  | answered {given : List (Sigma A)} {question : Q} {next : A question → Calls A R}
    (before : Follows whole given (ask question next)) (answer : A question) :
    Follows whole (given ++ [⟨question, answer⟩]) (next answer)

/-- A service that gives the same answers takes a client just as far. -/
theorem Follows.run {whole rest : Calls A R} {given : List (Sigma A)}
    (follows : Follows whole given rest) {answer : ∀ question, Option (A question)}
    (again : ∀ entry ∈ given, answer entry.1 = some entry.2) :
    whole.run answer = rest.run answer := by
  -- The induction follows the answers in the order they were given.
  induction follows with
  | start => rfl
  | answered before last ih =>
    have earlier := ih fun entry member => again entry (List.mem_append_left _ member)
    have same := again _ (List.mem_append_right _ List.mem_cons_self)
    rw [earlier, Calls.run, same]

end Calls

/-- A client at work, and the service it asks. -/
structure Client (S : Type) {Q : Type} (A : Q → Type) (R : Type) where
  /-- The service as it is. -/
  service : S
  /-- What is left of the client. -/
  rest : Calls A R
  /-- The answers the client was given, the first one first. -/
  given : List (Sigma A)
  /-- Every state of the service from the client's start to its end, the latest first. -/
  seen : List S

namespace Client

/-- What can happen while a client is at work. -/
inductive Action (C : Type) where
  /-- The client's question is answered. -/
  | call
  /-- The service changes. -/
  | change (change : C)

section Machine

variable {S Q C : Type} {A : Q → Type} {R : Type} (answer : S → ∀ question, Option (A question))
  (change : S → C → S)

/-- A client that starts to ask a service. -/
def start (service : S) (whole : Calls A R) : Client S A R := ⟨service, whole, [], [service]⟩

/-- One step: a question is answered by the service as it is, or the service changes. -/
def step (client : Client S A R) : Action C → Option (Client S A R)
  | .call => match client.rest with
    | .done _ => none
    | .ask question next => (answer client.service question).map fun given =>
      { client with rest := next given, given := client.given ++ [⟨question, given⟩] }
  | .change changed =>
    let after := change client.service changed
    some { client with
      service := after
      seen := if client.rest.isDone then client.seen else after :: client.seen }

/-- A change leaves every answer already given as it was, or every answer still to be given. -/
def Harmless (client : Client S A R) : Action C → Prop
  | .call => True
  | .change changed =>
    (∀ entry ∈ client.given, answer (change client.service changed) entry.1 = some entry.2) ∨
    ∀ question ∈ client.rest.asked (answer client.service),
      answer (change client.service changed) question = answer client.service question

/-- A change comes before the first answer or after the last one. -/
def apart (client : Client S A R) : Action C → Bool
  | .call => true
  | .change _ => client.given.isEmpty || client.rest.isDone

/-- A client's result, if it has one, is what one of the states it saw gives it. -/
def FromOne (whole : Calls A R) (client : Client S A R) : Prop :=
  ∀ result, client.rest = .done result →
    ∃ service ∈ client.seen, whole.run (answer service) = some result

/-- One of the states a client saw would have taken it where it is, and further with the present one. -/
structure Pivoted (whole : Calls A R) (client : Client S A R) : Prop where
  /-- The answers given lead to what is left. -/
  follows : Calls.Follows whole client.given client.rest
  /-- A state that gives the client what the present one gives the rest of it. -/
  pivot : ∃ service ∈ client.seen,
    whole.run (answer service) = client.rest.run (answer client.service)

variable {answer change}

/-- A change before the first answer or after the last one is harmless. -/
theorem harmless_of_apart {client : Client S A R} {action : Action C}
    (apart : client.apart action = true) : client.Harmless answer change action := by
  cases action with
  | call => trivial
  | change changed =>
    rcases Bool.or_eq_true_iff.mp apart with fresh | finished
    · left
      intro entry member
      rw [List.isEmpty_iff.mp fresh] at member
      cases member
    · right
      intro question member
      cases rest : client.rest with
      | done result =>
        rw [rest] at member
        cases member
      | ask question next =>
        rw [rest] at finished
        cases finished

/-- A harmless step keeps a pivot. -/
theorem Pivoted.step {whole : Calls A R} {client after : Client S A R} {action : Action C}
    (pivoted : Pivoted answer whole client) (harmless : client.Harmless answer change action)
    (taken : client.step answer change action = some after) : Pivoted answer whole after := by
  obtain ⟨follows, pivot, member, same⟩ := pivoted
  cases action with
  | call =>
    cases rest : client.rest with
    | done result =>
      simp only [Client.step, rest] at taken
      cases taken
    | ask question next =>
      rw [rest] at follows same
      simp only [Client.step, rest, Option.map_eq_some_iff] at taken
      obtain ⟨given, found, rfl⟩ := taken
      refine ⟨follows.answered given, pivot, member, ?_⟩
      rw [same, Calls.run, found]
  | change changed =>
    cases taken
    refine ⟨follows, ?_⟩
    cases rest : client.rest with
    | done result =>
      -- A result stays what it is.
      rw [rest] at same
      exact ⟨pivot, by simpa [Calls.isDone] using member, same⟩
    | ask question next =>
      rw [← rest]
      have open_still : client.rest.isDone = false := by
        rw [rest]
        rfl
      simp only [open_still, Bool.false_eq_true, if_false]
      rcases harmless with again | left
      · -- The new state would have given the same answers, so it is the pivot from here.
        exact ⟨_, List.mem_cons_self, follows.run again⟩
      · refine ⟨pivot, List.mem_cons_of_mem _ member, ?_⟩
        rw [same]
        exact (Calls.run_congr left).symm

/-- With harmless changes only, the result of a client is that of one state it saw. -/
theorem fromOne_of_run {whole : Calls A R} {service : S} {client : Client S A R}
    (run : Runs (step answer change) (fun client action => client.Harmless answer change action)
      (start service whole) client) : client.FromOne answer whole := by
  have pivoted : Pivoted answer whole client :=
    run.invariant (fun _ _ _ pivoted harmless taken => pivoted.step harmless taken)
      ⟨.start, service, List.mem_cons_self, rfl⟩
  intro result finished
  obtain ⟨pivot, member, same⟩ := pivoted.pivot
  rw [finished] at same
  exact ⟨pivot, member, same⟩

end Machine

end Client
