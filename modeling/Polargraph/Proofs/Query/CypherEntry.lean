import Polargraph.Proofs.Core.Utf8
import Polargraph.Proofs.Query.CypherLexer
import Polargraph.Query.CypherParser

/-! The entry points of Cypher texts return wherever their texts can be cut. -/

namespace Polargraph

namespace Cypher

/-! Parsers -/

namespace Outcome

variable {α β : Type}

/-- A function that goes on with a result returns when both parts do. -/
theorem returns_bind {first : Outcome α} {next : α → Outcome β} :
    (first >>= next).returns = true ↔
      first.returns = true ∧ ∀ value, first = .done value → (next value).returns = true := by
  cases first with
  | done value =>
    constructor
    · intro returned
      exact ⟨rfl, fun _ same => Outcome.done.inj same ▸ returned⟩
    · intro parts
      exact parts.2 value rfl
  | failed problem => exact ⟨fun _ => ⟨rfl, nofun⟩, fun _ => rfl⟩
  | panicked => exact ⟨nofun, fun parts => nomatch parts.1⟩

end Outcome

namespace Parser

variable {α β : Type}

/-- A parser returns on some tokens, with at least so many of them taken. -/
def TakesOn (n : Nat) (p : Parser α) (tokens : Tokens) : Prop :=
  match p.run tokens with
  | .done (_, rest) => rest.length + n ≤ tokens.length
  | .failed _ => True
  | .panicked => False

/-- A parser always returns, and takes at least so many tokens. -/
def Takes (n : Nat) (p : Parser α) : Prop := ∀ tokens, p.TakesOn n tokens

/-- A parser that takes some tokens returns. -/
theorem Takes.returns {n : Nat} {p : Parser α} (takes : Takes n p) (tokens : Tokens) :
    (p.run tokens).returns = true := by
  have safe := takes tokens
  rw [TakesOn] at safe
  generalize p.run tokens = outcome at safe
  cases outcome with
  | done | failed => rfl
  | panicked => exact safe.elim

/-- A parser that takes some tokens returns, whether it takes any or not. -/
theorem Takes.safe {n : Nat} {p : Parser α} (takes : Takes n p) : Takes 0 p := by
  intro tokens
  have few := takes tokens
  rw [TakesOn] at few ⊢
  generalize p.run tokens = outcome at few
  cases outcome with
  | done result => exact Nat.le_of_add_right_le few
  | failed problem => trivial
  | panicked => exact few

/-- A parser with a result takes nothing. -/
theorem takes_pure (value : α) : Takes 0 (pure value : Parser α) := fun _ => Nat.le_refl _

/-- A parser that gives up returns. -/
theorem takes_fail {n : Nat} (pos : Nat) (msg : String) : Takes n (fail pos msg : Parser α) :=
  fun _ => trivial

/-- Two parsers one after the other take what both take, on the tokens that are there. -/
theorem TakesOn.bind {k m n : Nat} {p : Parser α} {next : α → Parser β} {tokens : Tokens}
    (first : p.TakesOn m tokens)
    (second : ∀ value rest, p.run tokens = .done (value, rest) → (next value).TakesOn n rest)
    (few : k ≤ m + n) : (p >>= next).TakesOn k tokens := by
  have joined : (p >>= next).run tokens =
      (p.run tokens).bind fun result => (next result.1).run result.2 := rfl
  rw [TakesOn] at first ⊢
  rw [joined]
  generalize p.run tokens = outcome at first second
  cases outcome with
  | failed problem => trivial
  | panicked => exact first
  | done result =>
    obtain ⟨value, rest⟩ := result
    have others := second value rest rfl
    rw [TakesOn] at others
    simp only [Outcome.bind]
    generalize (next value).run rest = outcome at others
    cases outcome with
    | failed problem => trivial
    | panicked => exact others
    | done result =>
      have some_taken : rest.length + m ≤ tokens.length := first
      have more_taken : result.2.length + n ≤ rest.length := others
      change result.2.length + k ≤ tokens.length
      omega

/-- Two parsers one after the other return. -/
theorem Takes.seq {p : Parser α} {next : α → Parser β} (first : Takes 0 p)
    (second : ∀ value, Takes 0 (next value)) : Takes 0 (p >>= next) :=
  fun tokens => (first tokens).bind (fun value rest _ => second value rest) (Nat.le_refl _)

/-- Two parsers one after the other take a token if the first one does. -/
theorem Takes.first {p : Parser α} {next : α → Parser β} (first : Takes 1 p)
    (second : ∀ value, Takes 0 (next value)) : Takes 1 (p >>= next) :=
  fun tokens => (first tokens).bind (fun value rest _ => second value rest) (Nat.le_refl _)

/-- Two parsers one after the other take a token if the second one does. -/
theorem Takes.second {p : Parser α} {next : α → Parser β} (first : Takes 0 p)
    (second : ∀ value, Takes 1 (next value)) : Takes 1 (p >>= next) :=
  fun tokens => (first tokens).bind (fun value rest _ => second value rest) (Nat.le_refl _)

/-- A choice takes what both sides take. -/
theorem Takes.ite {n : Nat} {c : Prop} [Decidable c] {p q : Parser α} (yes : Takes n p)
    (no : Takes n q) : Takes n (if c then p else q) := by
  split
  · exact yes
  · exact no

/-- Looking at the tokens takes none. -/
theorem takes_get : Takes 0 (get : Parser Tokens) := fun _ => Nat.le_refl _

/-- Looking at the next token takes none. -/
theorem takes_peek : Takes 0 peek := fun _ => Nat.le_refl _

/-- Asking for the position takes no token. -/
theorem takes_currentPos : Takes 0 currentPos := fun _ => Nat.le_refl _

/-- Asking for a keyword takes no token. -/
theorem takes_peekKeyword (keyword : String) : Takes 0 (peekKeyword keyword) :=
  fun _ => Nat.le_refl _

/-- Moving on returns. -/
theorem takes_advance : Takes 0 advance := by
  intro tokens
  cases tokens with
  | nil => exact Nat.le_refl _
  | cons token rest => exact Nat.le_succ _

/-- A parser that starts with a look at the next token. -/
theorem takes_peek_bind {n : Nat} {next : Option Token → Parser β}
    (empty : (next none).TakesOn n [])
    (more : ∀ pos token rest, (next (some token)).TakesOn n ((pos, token) :: rest)) :
    Takes n (peek >>= next) := by
  intro tokens
  cases tokens with
  | nil => exact empty
  | cons token rest => exact more token.1 token.2 rest

/-- Moving on behind a token takes it. -/
theorem takesOn_advance_bind {next : Option Token → Parser β}
    (safe : ∀ token, Takes 0 (next token)) (pos : Nat) (token : Token) (rest : Tokens) :
    (advance >>= next).TakesOn 1 ((pos, token) :: rest) := by
  have taken : advance.TakesOn 1 ((pos, token) :: rest) := Nat.le_refl _
  exact taken.bind (fun value rest _ => safe value rest) (Nat.le_refl _)

/-- Repeating a part that takes a token returns before the rounds run out. -/
theorem takesOn_loop {test : Option Token → Bool} {item : Parser α} (takes : Takes 1 item)
    (rounds : Nat) (tokens : Tokens) (enough : tokens.length < rounds) :
    (loop test item rounds).TakesOn 0 tokens := by
  -- Every round takes a token, so there are fewer left for the rounds that remain.
  induction rounds generalizing tokens with
  | zero => omega
  | succ rounds ih =>
    rw [loop]
    apply @TakesOn.bind _ _ 0 0 0 _ _ _ (takes_peek tokens) _ (Nat.le_refl _)
    intro token others looked
    cases looked
    by_cases more : test (tokens.head?.map Prod.snd) = true
    · rw [if_pos more]
      have taken : item.TakesOn 1 tokens := takes tokens
      refine @TakesOn.bind _ _ 0 1 0 _ _ _ taken ?_ (Nat.zero_le _)
      intro value rest found
      rw [TakesOn, found] at taken
      have fewer : rest.length + 1 ≤ tokens.length := taken
      exact (ih rest (by omega)).bind (fun others after _ => takes_pure _ after) (Nat.le_refl _)
    · rw [if_neg more]
      exact takes_pure _ tokens

/-- Repeating a part that takes a token returns. -/
theorem takes_repeatWhile (test : Option Token → Bool) {item : Parser α} (takes : Takes 1 item) :
    Takes 0 (repeatWhile test item) := by
  intro tokens
  exact takesOn_loop takes (tokens.length + 1) tokens (Nat.lt_succ_self _)

/-- A list of parts behind commas takes a token if its parts do. -/
theorem takes_separated {item : Parser α} (takes : Takes 1 item) : Takes 1 (separated item) := by
  apply takes.first
  intro first
  have others := takes_repeatWhile (· = some .comma) (Takes.second takes_advance fun _ => takes)
  exact others.seq fun others => takes_pure _

/-! Productions -/

section Debug

variable (debug : DebugText)

/-- An expected token is taken. -/
theorem takes_expect (expected : Token) : Takes 1 (expect debug expected) := by
  apply Takes.second takes_currentPos
  intro pos
  apply takes_peek_bind
  · exact takes_fail _ _ _
  · intro start token rest
    dsimp only
    split
    · exact takesOn_advance_bind (fun _ => takes_pure _) start token rest
    · exact takes_fail _ _ _

/-- A name is taken. -/
theorem takes_expectIdent : Takes 1 (expectIdent debug) := by
  apply Takes.second takes_currentPos
  intro pos
  apply takes_peek_bind
  · exact takes_fail _ _ _
  · intro start token rest
    cases token with
    | ident name => exact takesOn_advance_bind (fun _ => takes_pure _) start _ rest
    | _ => exact takes_fail _ _ _

/-- An integer is taken. -/
theorem takes_expectInt : Takes 1 (expectInt debug) := by
  apply Takes.second takes_currentPos
  intro pos
  apply takes_peek_bind
  · exact takes_fail _ _ _
  · intro start token rest
    cases token with
    | int word => exact takesOn_advance_bind (fun _ => takes_pure _) start _ rest
    | _ => exact takes_fail _ _ _

/-- A string is taken. -/
theorem takes_expectStr (expectation : String) : Takes 1 (expectStr debug expectation) := by
  apply Takes.second takes_currentPos
  intro pos
  apply takes_peek_bind
  · exact takes_fail _ _ _
  · intro start token rest
    cases token with
    | str text => exact takesOn_advance_bind (fun _ => takes_pure _) start _ rest
    | _ => exact takes_fail _ _ _

/-- Moving on before a result returns. -/
theorem takes_advance_pure (value : α) : Takes 0 (advance >>= fun _ => pure value) :=
  takes_advance.seq fun _ => takes_pure value

/-- A literal is read. -/
theorem takes_parseLiteral : Takes 0 (parseLiteral debug) := by
  apply takes_currentPos.seq
  intro pos
  apply takes_peek.seq
  intro token
  split
  case h_5 name =>
    exact .ite (takes_advance_pure _) (.ite (takes_advance_pure _) (takes_fail _ _))
  all_goals first
    | exact takes_advance_pure _
    | exact takes_fail _ _

/-- A message with the position returns. -/
theorem takes_failHere (msg : String) :
    Takes 0 (currentPos >>= fun pos => (fail pos msg : Parser α)) :=
  takes_currentPos.seq fun pos => takes_fail pos msg

/-- A number of hits is read. -/
theorem takes_parseCount (message : String) : Takes 0 (parseCount debug message) := by
  apply (takes_expectInt debug).safe.seq
  intro word
  exact .ite (takes_failHere _) (takes_pure _)

/-- A width is read. -/
theorem takes_parseEf (clause : String) : Takes 0 (parseEf debug clause) := by
  apply takes_peek.seq
  intro token
  refine .ite ?_ (takes_pure _)
  apply takes_advance.seq
  intro _
  apply (takes_expectIdent debug).safe.seq
  intro name
  refine .ite (takes_failHere _) ?_
  apply (takes_expect debug _).safe.seq
  intro _
  exact (takes_parseCount debug _).seq fun ef => takes_pure _

/-- The arguments of a vector search are read. -/
theorem takes_parseVectorArguments (clause : String) : Takes 0 (parseVectorArguments debug clause) := by
  apply (takes_expect debug _).safe.seq
  intro _
  apply (takes_expectIdent debug).safe.seq
  intro name
  apply (takes_expect debug _).safe.seq
  intro _
  apply (takes_expectStr debug _).safe.seq
  intro space
  apply (takes_expect debug _).safe.seq
  intro _
  apply (takes_parseCount debug _).seq
  intro k
  apply (takes_parseEf debug _).seq
  intro ef
  exact (takes_expect debug _).safe.seq fun _ => takes_pure _

/-- A leading call is read. -/
theorem takes_parseCallClause : Takes 0 (parseCallClause debug) := by
  apply takes_currentPos.seq
  intro pos
  apply (takes_expectIdent debug).safe.seq
  intro procedure
  refine .ite (takes_fail _ _) ?_
  apply (takes_parseVectorArguments debug _).seq
  intro arguments
  apply takes_currentPos.seq
  intro pos
  apply (takes_peekKeyword _).seq
  intro yields
  refine .ite ?_ (takes_fail _ _)
  apply takes_advance.seq
  intro _
  exact (takes_separated (takes_expectIdent debug)).safe.seq fun vars => takes_pure _

/-- A comparison is read behind its operator. -/
theorem takes_comparison (first prop : String) : Takes 0 (do
    if (comparison (← peek)).isSome then do
      match comparison (← advance) with
      | some op => do
        let value ← parseLiteral debug
        return WhereClause.propertyCmp first prop op value
      | none => unreachable
    else fail (← currentPos) "expected comparison operator or =~ after property name") := by
  -- The token that is taken is the one that was looked at.
  apply takes_peek_bind
  · exact takes_failHere _ _
  · intro start token rest
    by_cases compares : (comparison (some token)).isSome = true
    · rw [if_pos compares]
      obtain ⟨op, same⟩ := Option.isSome_iff_exists.mp compares
      refine @TakesOn.bind _ _ 0 0 0 _ _ _ (takes_advance _) ?_ (Nat.le_refl _)
      intro value after taken
      cases taken
      simp only [same]
      exact (takes_parseLiteral debug).seq (fun value => takes_pure _) _
    · rw [if_neg compares]
      exact takes_failHere _ _

/-- A condition on a property is read. -/
theorem takes_parseComparison (first : String) : Takes 0 (parseComparison debug first) := by
  apply (takes_expect debug _).safe.seq
  intro _
  apply (takes_expectIdent debug).safe.seq
  intro prop
  apply (takes_peekKeyword _).seq
  intro contains
  refine .ite (takes_advance.seq fun _ =>
    (takes_expectStr debug _).safe.seq fun text => takes_pure _) ?_
  apply (takes_peekKeyword _).seq
  intro starts
  refine .ite ?_ ?_
  · apply takes_advance.seq
    intro _
    apply takes_currentPos.seq
    intro pos
    apply (takes_peekKeyword _).seq
    intro withs
    exact .ite (takes_advance.seq fun _ =>
      (takes_expectStr debug _).safe.seq fun text => takes_pure _) (takes_fail _ _)
  · apply takes_peek.seq
    intro token
    refine .ite ?_ (takes_comparison debug first prop)
    apply takes_advance.seq
    intro _
    apply takes_peek.seq
    intro token
    exact .ite (takes_advance.seq fun _ =>
        (takes_expectStr debug _).safe.seq fun text => takes_pure _)
      ((takes_parseLiteral debug).seq fun value => takes_pure _)

/-- A condition is taken. -/
theorem takes_parseCondition : Takes 1 (parseCondition debug) := by
  apply (takes_expectIdent debug).first
  intro first
  refine .ite ?_ (takes_parseComparison debug first)
  exact (takes_parseVectorArguments debug _).seq fun arguments => takes_pure _

/-- Conditions are read. -/
theorem takes_parseWhereClause : Takes 0 (parseWhereClause debug) := by
  apply (takes_parseCondition debug).safe.seq
  intro first
  have others := takes_repeatWhile (isKeyword "AND")
    (Takes.second takes_advance fun _ => takes_parseCondition debug)
  exact others.seq fun others => takes_pure _

/-- Conditions that may be missing are read. -/
theorem takes_parseOptionalWhere : Takes 0 (parseOptionalWhere debug) := by
  apply (takes_peekKeyword _).seq
  intro given
  exact .ite (takes_advance.seq fun _ => takes_parseWhereClause debug) (takes_pure _)

/-- The clause between matching and returning is read. -/
theorem takes_parseWithClause : Takes 0 (parseWithClause debug) :=
  (takes_separated (takes_expectIdent debug)).safe.seq fun _ => takes_parseOptionalWhere debug

/-- A sort key is taken. -/
theorem takes_parseOrderSpec : Takes 1 (parseOrderSpec debug) := by
  apply (takes_expectIdent debug).first
  intro key
  apply (takes_peekKeyword _).seq
  intro ascending
  refine .ite (takes_advance_pure _) ?_
  apply (takes_peekKeyword _).seq
  intro descending
  exact .ite (takes_advance_pure _) (takes_pure _)

/-- A property is taken. -/
theorem takes_parseProp : Takes 1 (parseProp debug) := by
  apply (takes_expectIdent debug).first
  intro key
  apply (takes_expect debug _).safe.seq
  intro _
  exact (takes_parseLiteral debug).seq fun value => takes_pure _

/-- Properties are read. -/
theorem takes_parsePropMap : Takes 0 (parsePropMap debug) := by
  apply (takes_expect debug _).safe.seq
  intro _
  have props : Takes 0 (parseProps debug) :=
    takes_peek.seq fun token => .ite (takes_separated (takes_parseProp debug)).safe (takes_pure _)
  apply props.seq
  intro props
  exact (takes_expect debug _).safe.seq fun _ => takes_pure _

/-- The variable of a node is read. -/
theorem takes_parseNodeVar : Takes 0 parseNodeVar := by
  apply takes_peek.seq
  intro token
  split
  · exact .ite (takes_pure _) (takes_advance_pure _)
  · exact takes_pure _

/-- The label of a node is read. -/
theorem takes_parseNodeLabel : Takes 0 (parseNodeLabel debug) := by
  apply takes_peek.seq
  intro token
  refine .ite ?_ (takes_pure _)
  exact takes_advance.seq fun _ => (takes_expectIdent debug).safe.seq fun name => takes_pure _

/-- A node is taken. -/
theorem takes_parseNodePat : Takes 1 (parseNodePat debug) := by
  apply (takes_expect debug _).first
  intro _
  apply takes_parseNodeVar.seq
  intro var
  apply (takes_parseNodeLabel debug).seq
  intro label
  have props : Takes 0 (parseNodeProps debug) :=
    takes_peek.seq fun token => .ite (takes_parsePropMap debug) (takes_pure _)
  apply props.seq
  intro props
  exact (takes_expect debug _).safe.seq fun _ => takes_pure _

/-- The variable of a relationship is read. -/
theorem takes_parseRelVar : Takes 0 (parseRelVar debug) := by
  apply takes_get.seq
  intro tokens
  split
  · exact (takes_expectIdent debug).safe.seq fun name => takes_pure _
  · exact takes_pure _

/-- The length of a path is read. -/
theorem takes_parseHops : Takes 0 (parseHops debug) := by
  apply takes_peek.seq
  intro token
  refine .ite ?_ (takes_pure _)
  apply takes_advance.seq
  intro _
  apply takes_peek.seq
  intro token
  split
  · apply takes_advance.seq
    intro _
    apply takes_peek.seq
    intro token
    refine .ite ?_ (takes_pure _)
    exact takes_advance.seq fun _ => (takes_expectInt debug).safe.seq fun most => takes_pure _
  · exact takes_pure _

/-- A relationship in brackets is read. -/
theorem takes_parseRelBody : Takes 0 (parseRelBody debug) := by
  apply (takes_expect debug _).safe.seq
  intro _
  apply (takes_parseRelVar debug).seq
  intro var
  apply (takes_expect debug _).safe.seq
  intro _
  apply (takes_expectIdent debug).safe.seq
  intro predicate
  apply (takes_parseHops debug).seq
  intro hops
  exact (takes_expect debug _).safe.seq fun _ => takes_pure _

/-- A relationship is read with its direction. -/
theorem takes_parseRelDirection : Takes 0 (parseRelDirection debug) := by
  apply takes_peek.seq
  intro token
  have arrow : ∀ (last : Token) (direction : Direction), Takes 0 (do
      let _ ← advance
      let rel ← parseRelBody debug
      expect debug last
      return (rel, direction)) := by
    intro last direction
    apply takes_advance.seq
    intro _
    apply (takes_parseRelBody debug).seq
    intro rel
    exact (takes_expect debug _).safe.seq fun _ => takes_pure _
  split
  · exact arrow .arrow .out
  · exact arrow .dash .into
  · exact takes_failHere _

/-- A relationship and the node it leads to are taken. -/
theorem takes_parseHop : Takes 1 (parseHop debug) := by
  apply (takes_parseRelDirection debug).second
  intro rel
  exact (takes_parseNodePat debug).first fun target => takes_pure _

/-- A path is taken. -/
theorem takes_parsePath : Takes 1 (parsePath debug) := by
  apply (takes_parseNodePat debug).first
  intro start
  exact (takes_repeatWhile startsRel (takes_parseHop debug)).seq fun hops => takes_pure _

/-- An alias is read. -/
theorem takes_parseAggregation (pos : Nat) (func : AggFunc) :
    Takes 0 (parseAggregation debug pos func) := by
  apply takes_currentPos.seq
  intro here
  apply (takes_peekKeyword _).seq
  intro given
  refine .ite ?_ (takes_fail _ _)
  exact takes_advance.seq fun _ => (takes_expectIdent debug).safe.seq fun name => takes_pure _

/-- A property in parentheses is read. -/
theorem takes_parsePropArgument : Takes 0 (parsePropArgument debug) := by
  apply (takes_expect debug _).safe.seq
  intro _
  apply (takes_expectIdent debug).safe.seq
  intro var
  apply (takes_expect debug _).safe.seq
  intro _
  apply (takes_expectIdent debug).safe.seq
  intro prop
  exact (takes_expect debug _).safe.seq fun _ => takes_pure _

/-- A variable in parentheses is read. -/
theorem takes_parseVarArgument : Takes 0 (parseVarArgument debug) := by
  apply (takes_expect debug _).safe.seq
  intro _
  apply (takes_expectIdent debug).safe.seq
  intro var
  exact (takes_expect debug _).safe.seq fun _ => takes_pure _

/-- What is counted is read. -/
theorem takes_parseCountArgument : Takes 0 (parseCountArgument debug) := by
  apply takes_peek.seq
  intro token
  exact .ite (takes_advance_pure _)
    ((takes_expectIdent debug).safe.seq fun var => takes_pure _)

/-- A thing to return is taken. -/
theorem takes_parseOneReturnItem : Takes 1 (parseOneReturnItem debug) := by
  apply takes_currentPos.second
  intro pos
  apply (takes_expectIdent debug).first
  intro name
  refine .ite ?_ (.ite ?_ (.ite ?_ ?_))
  · exact (takes_parseVarArgument debug).seq fun relVar => takes_pure _
  · apply (takes_expect debug _).safe.seq
    intro _
    apply (takes_parseCountArgument debug).seq
    intro func
    exact (takes_expect debug _).safe.seq fun _ => takes_parseAggregation debug _ _
  · exact (takes_parseVarArgument debug).seq fun var => takes_parseAggregation debug _ _
  · -- The functions that are told apart are the ones that were let through.
    by_cases known : name.toUpper = "SUM" ∨ name.toUpper = "AVG" ∨ name.toUpper = "MIN" ∨
        name.toUpper = "MAX"
    · rw [if_pos known]
      apply (takes_parsePropArgument debug).seq
      intro argument
      dsimp only
      rcases known with same | same | same | same <;> rw [same] <;>
        exact takes_parseAggregation debug _ _
    · rw [if_neg known]
      apply takes_peek.seq
      intro token
      refine .ite ?_ (takes_pure _)
      exact takes_advance.seq fun _ => (takes_expectIdent debug).safe.seq fun prop => takes_pure _

/-- A number behind a keyword is read. -/
theorem takes_parseBound (keyword : String) : Takes 0 (parseBound debug keyword) := by
  apply (takes_peekKeyword _).seq
  intro given
  refine .ite ?_ (takes_pure _)
  apply takes_advance.seq
  intro _
  apply (takes_expectInt debug).safe.seq
  intro n
  exact .ite (takes_failHere _) (takes_pure _)

/-- Sort keys are read. -/
theorem takes_parseOrderBy : Takes 0 (parseOrderBy debug) := by
  apply (takes_peekKeyword _).seq
  intro given
  refine .ite ?_ (takes_pure _)
  apply takes_advance.seq
  intro _
  apply takes_currentPos.seq
  intro pos
  apply (takes_peekKeyword _).seq
  intro follows
  exact .ite (takes_advance.seq fun _ => (takes_separated (takes_parseOrderSpec debug)).safe)
    (takes_fail _ _)

/-- A leading call is read if there is one. -/
theorem takes_parseCall : Takes 0 (parseCall debug) := by
  apply (takes_peekKeyword _).seq
  intro given
  refine .ite ?_ (takes_pure _)
  exact takes_advance.seq fun _ => (takes_parseCallClause debug).seq fun call => takes_pure _

/-- The paths to match are read. -/
theorem takes_parseMatch (call : Option CallClause) : Takes 0 (parseMatch debug call) := by
  apply takes_currentPos.seq
  intro pos
  apply (takes_peekKeyword _).seq
  intro given
  refine .ite ?_ (.ite (takes_fail _ _) (takes_pure _))
  exact takes_advance.seq fun _ => (takes_separated (takes_parsePath debug)).safe

/-- What is returned is read. -/
theorem takes_parseReturn : Takes 0 (parseReturn debug) := by
  apply takes_currentPos.seq
  intro pos
  apply (takes_peekKeyword _).seq
  intro given
  refine .ite ?_ (takes_fail _ _)
  exact takes_advance.seq fun _ => (takes_separated (takes_parseOneReturnItem debug)).safe

/-- The end of the tokens is checked. -/
theorem takes_expectEnd (place : String) : Takes 0 (expectEnd debug place) := by
  apply takes_peek.seq
  intro token
  split
  · exact takes_failHere _
  · exact takes_pure _

/-- A query is read. -/
theorem takes_parseQuery : Takes 0 (parseQuery debug) := by
  apply (takes_parseCall debug).seq
  intro call
  apply (takes_parseMatch debug call).seq
  intro paths
  apply (takes_parseOptionalWhere debug).seq
  intro wheres
  have withs : Takes 0 (parseOptionalWith debug) := (takes_peekKeyword _).seq fun given =>
    .ite (takes_advance.seq fun _ => takes_parseWithClause debug) (takes_pure _)
  apply withs.seq
  intro withs
  apply (takes_parseReturn debug).seq
  intro items
  apply (takes_parseOrderBy debug).seq
  intro order
  apply (takes_parseBound debug _).seq
  intro skip
  apply (takes_parseBound debug _).seq
  intro limit
  exact (takes_expectEnd debug _).seq fun _ => takes_pure _

/-- What a clause creates first is taken. -/
theorem takes_parseCreateClause : Takes 1 (parseCreateClause debug) := by
  apply (takes_parseNodePat debug).first
  intro node
  apply takes_peek.seq
  intro token
  refine .ite ?_ (takes_pure _)
  apply (takes_parseRelDirection debug).seq
  intro rel
  apply (takes_parseNodePat debug).safe.seq
  intro other
  refine .ite (takes_failHere _) ?_
  dsimp only
  split
  · exact takes_failHere _
  · exact takes_failHere _
  · exact takes_pure _

/-- What a clause creates is read before the rounds run out. -/
theorem takesOn_createClauses (rounds : Nat) (tokens : Tokens) (enough : tokens.length < rounds) :
    (createClauses debug rounds).TakesOn 0 tokens := by
  -- Every round takes a token, so there are fewer left for the rounds that remain.
  induction rounds generalizing tokens with
  | zero => omega
  | succ rounds ih =>
    rw [createClauses]
    apply @TakesOn.bind _ _ 0 0 0 _ _ _ (takes_peek tokens) _ (Nat.le_refl _)
    intro token others looked
    cases looked
    by_cases ends : tokens.head?.map Prod.snd ≠ some .lparen
    · rw [if_pos ends]
      exact takes_pure _ tokens
    · rw [if_neg ends]
      have taken : (parseCreateClause debug).TakesOn 1 tokens := takes_parseCreateClause debug tokens
      refine @TakesOn.bind _ _ 0 1 0 _ _ _ taken ?_ (Nat.zero_le _)
      intro first rest found
      rw [TakesOn, found] at taken
      have fewer : rest.length + 1 ≤ tokens.length := taken
      apply @TakesOn.bind _ _ 0 0 0 _ _ _ (takes_peek rest) _ (Nat.le_refl _)
      intro token others looked
      cases looked
      by_cases more : rest.head?.map Prod.snd = some .comma
      · rw [if_pos more]
        have moved : advance.TakesOn 0 rest := takes_advance rest
        refine @TakesOn.bind _ _ 0 0 0 _ _ _ moved ?_ (Nat.le_refl _)
        intro token behind step
        rw [TakesOn, step] at moved
        have least : behind.length + 0 ≤ rest.length := moved
        exact (ih behind (by omega)).bind (fun others after _ => takes_pure _ after) (Nat.le_refl _)
      · rw [if_neg more]
        exact takes_pure _ rest

/-- What a clause creates is read. -/
theorem takes_parseCreateClauses : Takes 0 (parseCreateClauses debug) := fun tokens =>
  takesOn_createClauses debug (tokens.length + 1) tokens (Nat.lt_succ_self _)

/-- A property that a clause sets is taken. -/
theorem takes_parseSetClause : Takes 1 (parseSetClause debug) := by
  apply (takes_expectIdent debug).first
  intro var
  apply (takes_expect debug _).safe.seq
  intro _
  apply (takes_expectIdent debug).safe.seq
  intro key
  apply (takes_expect debug _).safe.seq
  intro _
  exact (takes_parseLiteral debug).seq fun value => takes_pure _

/-- The operations of a write are read. -/
theorem takes_parseWriteStatement : Takes 0 (parseWriteStatement debug) := by
  apply takes_currentPos.seq
  intro pos
  apply (takes_peekKeyword _).seq
  intro creates
  refine .ite (takes_advance.seq fun _ => takes_parseCreateClauses debug) ?_
  apply (takes_peekKeyword _).seq
  intro merges
  refine .ite (takes_advance.seq fun _ =>
    (takes_parseNodePat debug).safe.seq fun node => takes_pure _) ?_
  apply (takes_peekKeyword _).seq
  intro sets
  refine .ite (takes_advance.seq fun _ =>
    (takes_separated (takes_parseSetClause debug)).safe.seq fun clauses => takes_pure _) ?_
  apply (takes_peekKeyword _).seq
  intro deletes
  exact .ite (takes_advance.seq fun _ =>
    (takes_separated (takes_expectIdent debug)).safe.seq fun vars => takes_pure _) (takes_fail _ _)

/-- A statement is read. -/
theorem takes_parseStatementInner : Takes 0 (parseStatementInner debug) := by
  apply (takes_peekKeyword _).seq
  intro matches_first
  exact .ite ((takes_parseQuery debug).seq fun query => takes_pure _)
    ((takes_parseWriteStatement debug).seq fun ops => takes_pure _)

/-- A write that may have a matching part is read. -/
theorem takes_parseCompiledWrite (ext : External) (prefixes : String → Option String) :
    Takes 0 (parseCompiledWrite debug ext prefixes) := by
  have part : Takes 0 (parseMatchPart debug ext prefixes) := by
    apply (takes_peekKeyword _).seq
    intro given
    refine .ite ?_ (takes_pure _)
    apply takes_advance.seq
    intro _
    apply (takes_separated (takes_parsePath debug)).safe.seq
    intro paths
    exact (takes_parseOptionalWhere debug).seq fun wheres => takes_pure _
  apply part.seq
  intro part
  apply takes_currentPos.seq
  intro pos
  apply takes_peek.seq
  intro token
  exact .ite (takes_fail _ _) ((takes_parseWriteStatement debug).seq fun writes => takes_pure _)

end Debug

end Parser

/-! Cutting texts -/

/-- A text without characters has no bytes. -/
theorem byteLen_nil : byteLen [] = 0 := by simp only [byteLen, utf8_ofList, List.flatMap_nil,
  List.length_nil]

/-- The first character of a text counts with its bytes. -/
theorem byteLen_cons (c : Char) (text : List Char) :
    byteLen (c :: text) = c.utf8Size + byteLen text := by
  simp only [byteLen, utf8_ofList, List.flatMap_cons, List.length_append,
    String.length_utf8EncodeChar]

/-- A text is cut where its front has as many bytes. -/
theorem sliceAt_eq_some {text front back : List Char} {n : Nat} :
    sliceAt text n = some (front, back) ↔ text = front ++ back ∧ byteLen front = n := by
  -- The induction is on the rounds of cutting, one character each.
  induction text, n using sliceAt.induct generalizing front back with
  | case1 text =>
    rw [sliceAt]
    constructor
    · intro same
      cases same
      exact ⟨rfl, byteLen_nil⟩
    · intro parts
      obtain ⟨rfl, few⟩ := parts
      cases front with
      | nil => rfl
      | cons c front =>
        rw [byteLen_cons] at few
        have some_bytes := c.utf8Size_pos
        omega
  | case2 n =>
    rw [sliceAt]
    constructor
    · nofun
    · intro parts
      obtain ⟨same, many⟩ := parts
      rw [(List.append_eq_nil_iff.mp same.symm).1, byteLen_nil] at many
      cases many
  | case3 c text n fits ih =>
    rw [sliceAt, if_pos fits, Option.map_eq_some_iff]
    constructor
    · intro cut
      obtain ⟨⟨first, last⟩, found, same⟩ := cut
      cases same
      obtain ⟨rfl, many⟩ := ih.mp found
      refine ⟨rfl, ?_⟩
      rw [byteLen_cons]
      omega
    · intro parts
      obtain ⟨same, many⟩ := parts
      cases front with
      | nil =>
        rw [byteLen_nil] at many
        cases many
      | cons d front =>
        cases same
        rw [byteLen_cons] at many
        exact ⟨(front, back), ih.mpr ⟨rfl, by omega⟩, rfl⟩
  | case4 c text n wide =>
    rw [sliceAt, if_neg wide]
    constructor
    · nofun
    · intro parts
      obtain ⟨same, many⟩ := parts
      cases front with
      | nil =>
        rw [byteLen_nil] at many
        cases many
      | cons d front =>
        cases same
        rw [byteLen_cons] at many
        omega

/-- A text is shorter than a number of bytes, or can be cut behind them. -/
def Cuttable (text : List Char) (n : Nat) : Prop :=
  byteLen text < n ∨ ∃ front back, text = front ++ back ∧ byteLen front = n

/-- Whether a character stands behind a keyword. -/
def isSeparator (c : Char) : Bool := isWhitespace c || c == '<'

/-- A text starts with a word, in whatever case, and the rest of it with a separator. -/
def Starts (text : List Char) (word : String) (rest : List Char) : Prop :=
  ∃ front, text = front ++ rest ∧ byteLen front = byteLen word.toList ∧
    (String.ofList front).toLower = word.toLower ∧ rest.head?.any isSeparator = true

/-- A text can be cut wherever a graph clause is looked for. -/
structure Sliceable (input : List Char) : Prop where
  /-- Behind the first three bytes, without the white space at the start. -/
  use : Cuttable (trimStart input) 3
  /-- Behind the first five bytes after the keyword, without the white space there. -/
  graph : ∀ rest, Starts (trimStart input) "USE" rest → Cuttable (trimStart rest) 5

/-- Looking for a word returns where the text can be cut. -/
theorem startsWithWord_returns_iff (text : List Char) (word : String) :
    (startsWithWord text word).returns = true ↔ Cuttable text (byteLen word.toList) := by
  rw [startsWithWord, Cuttable]
  by_cases short : byteLen text < byteLen word.toList
  · rw [if_pos short]
    exact ⟨fun _ => .inl short, fun _ => rfl⟩
  · rw [if_neg short]
    cases cut : sliceAt text (byteLen word.toList) with
    | some parts =>
      obtain ⟨front, back⟩ := parts
      exact ⟨fun _ => .inr ⟨front, back, sliceAt_eq_some.mp cut⟩, fun _ => rfl⟩
    | none =>
      constructor
      · nofun
      · intro cuttable
        rcases cuttable with few | ⟨front, back, same⟩
        · exact absurd few short
        · rw [sliceAt_eq_some.mpr same] at cut
          cases cut

/-- A word that is found is one that the text starts with, and the text is cut behind it. -/
theorem startsWithWord_eq_true {text : List Char} {word : String} :
    startsWithWord text word = .done true ↔
      ∃ rest, Starts text word rest ∧ sliceFrom text (byteLen word.toList) = .done rest := by
  rw [startsWithWord, sliceFrom]
  constructor
  · intro found
    by_cases short : byteLen text < byteLen word.toList
    · rw [if_pos short] at found
      cases found
    · rw [if_neg short] at found
      cases cut : sliceAt text (byteLen word.toList) with
      | none =>
        rw [cut] at found
        cases found
      | some parts =>
        obtain ⟨front, back⟩ := parts
        rw [cut] at found
        obtain ⟨same, many⟩ := sliceAt_eq_some.mp cut
        have both := Bool.and_eq_true_iff.mp (Outcome.done.inj found)
        exact ⟨back, ⟨front, same, many, of_decide_eq_true both.1, both.2⟩, rfl⟩
  · intro starts
    obtain ⟨rest, ⟨front, same, many, equal, separated⟩, _⟩ := starts
    have enough : ¬ byteLen text < byteLen word.toList := by
      have whole : byteLen text = byteLen front + byteLen rest := by
        simp only [byteLen, same, utf8_ofList, List.flatMap_append, List.length_append]
      omega
    rw [if_neg enough, sliceAt_eq_some.mpr ⟨same, many⟩]
    exact congrArg Outcome.done (Bool.and_eq_true_iff.mpr ⟨decide_eq_true equal, separated⟩)

/-- A text that starts with a word is cut behind it. -/
theorem sliceFrom_of_starts {text rest : List Char} {word : String} (starts : Starts text word rest) :
    sliceFrom text (byteLen word.toList) = .done rest := by
  obtain ⟨front, same, many, _⟩ := starts
  rw [sliceFrom, sliceAt_eq_some.mpr ⟨same, many⟩]

/-- Reading the graph of a clause returns. -/
theorem readGraphIri_returns (pos : Nat) (rest : List Char) :
    (readGraphIri pos rest).returns = true := by
  unfold readGraphIri
  split
  · dsimp only
    split
    · rfl
    · split
      · rfl
      · rfl
  · rfl

/-- Looking for the second word of a clause returns where the text can be cut. -/
theorem skipGraphWord_returns_iff (rest : List Char) :
    (skipGraphWord rest).returns = true ↔ Cuttable rest 5 := by
  have length : byteLen "GRAPH".toList = 5 := by decide +kernel
  have cuts := startsWithWord_returns_iff rest "GRAPH"
  rw [length] at cuts
  rw [skipGraphWord, Outcome.returns_bind, cuts, and_iff_left_iff_imp]
  intro _ found same
  cases found with
  | false => rfl
  | true =>
    obtain ⟨behind, _, cut⟩ := startsWithWord_eq_true.mp same
    rw [length] at cut
    rw [if_pos rfl, cut]
    rfl

/-- Splitting a graph clause off returns where the text can be cut. -/
theorem splitUseGraph_returns_iff (input : List Char) :
    (splitUseGraph input).returns = true ↔ Sliceable input := by
  have length : byteLen "USE".toList = 3 := by decide +kernel
  have cuts := startsWithWord_returns_iff (trimStart input) "USE"
  have starts := @startsWithWord_eq_true (trimStart input) "USE"
  rw [length] at cuts starts
  rw [splitUseGraph, Outcome.returns_bind, cuts]
  constructor
  · intro parts
    obtain ⟨use, more⟩ := parts
    refine ⟨use, fun rest begins => ?_⟩
    have cut := sliceFrom_of_starts begins
    have found := more true (starts.mpr ⟨rest, begins, length ▸ cut⟩)
    rw [if_pos rfl, Outcome.returns_bind] at found
    have next := found.2 rest (length ▸ cut)
    exact (skipGraphWord_returns_iff _).mp (Outcome.returns_bind.mp next).1
  · intro sliceable
    refine ⟨sliceable.use, fun found same => ?_⟩
    cases found with
    | false => rfl
    | true =>
      obtain ⟨rest, begins, cut⟩ := starts.mp same
      have next := (skipGraphWord_returns_iff _).mpr (sliceable.graph rest begins)
      rw [if_pos rfl, cut]
      refine Outcome.returns_bind.mpr ⟨rfl, fun behind same => ?_⟩
      cases same
      exact Outcome.returns_bind.mpr ⟨next, fun _ _ => readGraphIri_returns _ _⟩

section Library

variable (parseF64 : String → Option UInt64) (debug : DebugText)

/-- Reading the tokens of a text returns. -/
theorem lex_returns (text : List Char) : (lex parseF64 debug text).returns = true := by
  have ends := @tokenize_isSome parseF64 debug (String.ofList text)
  rw [lex]
  generalize tokenize parseF64 debug (String.ofList text) = result at ends
  cases result with
  | none => cases ends
  | some result =>
    cases result with
    | error | ok => rfl

/-- Going on behind the graph clause returns if the text can be cut. -/
theorem returns_behind_graph {α : Type} (input : List Char)
    {next : Option String × List Char → Outcome α} (safe : ∀ parts, (next parts).returns = true) :
    (splitUseGraph input >>= next).returns = true ↔ Sliceable input := by
  rw [Outcome.returns_bind, splitUseGraph_returns_iff, and_iff_left_iff_imp]
  exact fun _ parts _ => safe parts

/-- Reading a query returns where its text can be cut. -/
theorem parse_returns_iff (input : String) :
    (parse parseF64 debug input).returns = true ↔ Sliceable input.toList := by
  apply returns_behind_graph
  intro parts
  refine Outcome.returns_bind.mpr ⟨lex_returns parseF64 debug _, fun tokens _ => ?_⟩
  have safe := (Parser.takes_parseQuery debug).returns tokens
  exact Outcome.returns_bind.mpr ⟨safe, fun _ _ => rfl⟩

/-- Reading a statement returns where its text can be cut. -/
theorem parseStatement_returns_iff (input : String) :
    (parseStatement parseF64 debug input).returns = true ↔ Sliceable input.toList := by
  apply returns_behind_graph
  intro parts
  refine Outcome.returns_bind.mpr ⟨lex_returns parseF64 debug _, fun tokens _ => ?_⟩
  have safe := (Parser.takes_parseStatementInner debug).returns tokens
  refine Outcome.returns_bind.mpr ⟨safe, fun result _ => ?_⟩
  have placed : (result.1.inGraph parts.1).returns = true := by
    unfold CypherStatement.inGraph
    split
    · rfl
    · rfl
    · rfl
  refine Outcome.returns_bind.mpr ⟨placed, fun statement _ => ?_⟩
  have ends := (Parser.takes_expectEnd debug "statement").returns result.2
  exact Outcome.returns_bind.mpr ⟨ends, fun _ _ => rfl⟩

/-- Reading a write returns where its text can be cut. -/
theorem parseWrite_returns_iff (ext : External) (prefixes : String → Option String)
    (input : String) :
    (parseWrite parseF64 debug ext prefixes input).returns = true ↔ Sliceable input.toList := by
  apply returns_behind_graph
  intro parts
  refine Outcome.returns_bind.mpr ⟨lex_returns parseF64 debug _, fun tokens _ => ?_⟩
  have safe := (Parser.takes_parseCompiledWrite debug ext prefixes).returns tokens
  refine Outcome.returns_bind.mpr ⟨safe, fun result _ => ?_⟩
  have ends := (Parser.takes_expectEnd debug "write statement").returns result.2
  refine Outcome.returns_bind.mpr ⟨ends, fun _ _ => ?_⟩
  split
  · rfl
  · rfl

/-- Asking whether a text is a write returns where the text can be cut. -/
theorem isWriteStatement_returns_iff (input : String) :
    (isWriteStatement input).returns = true ↔ Sliceable input.toList := by
  rw [← splitUseGraph_returns_iff, isWriteStatement]
  cases splitUseGraph input.toList with
  | done | failed | panicked => exact Iff.rfl

/-- The entry points return on exactly the texts that can be cut where they look for a clause. -/
theorem entries_return_iff (ext : External) (prefixes : String → Option String) (input : String) :
    ((parse parseF64 debug input).returns = true ∧
      (parseStatement parseF64 debug input).returns = true ∧
      (parseWrite parseF64 debug ext prefixes input).returns = true ∧
      (isWriteStatement input).returns = true ∧
      (splitUseGraph input.toList).returns = true) ↔ Sliceable input.toList := by
  rw [parse_returns_iff, parseStatement_returns_iff, parseWrite_returns_iff,
    isWriteStatement_returns_iff, splitUseGraph_returns_iff]
  simp only [and_self]

end Library

/-- A character that spans the third and the fourth byte of a text makes the entry points panic. -/
theorem isWriteStatement_panics :
    (isWriteStatement "abé").returns = false ∧ (splitUseGraph "abé".toList).returns = false := by
  decide +kernel

end Cypher

end Polargraph
