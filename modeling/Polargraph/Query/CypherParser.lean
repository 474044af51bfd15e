import Polargraph.Query.CypherCompile
import Polargraph.Query.CypherLexer

/-! The parser of Cypher texts, and its entry points. -/

namespace Polargraph

namespace Cypher

/-- What a function comes to: a result, an error, or a panic. -/
inductive Outcome (α : Type) where
  /-- It returns a result. -/
  | done (value : α)
  /-- It returns an error. -/
  | failed (problem : CypherError)
  /-- It panics, or does not return. -/
  | panicked

namespace Outcome

/-- Go on with the result of a function. -/
def bind {α β : Type} : Outcome α → (α → Outcome β) → Outcome β
  | done value, next => next value
  | failed problem, _ => .failed problem
  | panicked, _ => .panicked

instance : Monad Outcome where
  pure := done
  bind := bind

/-- Whether a function returns. -/
def returns {α : Type} : Outcome α → Bool
  | panicked => false
  | _ => true

/-- The result of a computation that returns, if it comes to an end. -/
def ofLoop {α : Type} : Option (Except CypherError α) → Outcome α
  | some (.ok value) => done value
  | some (.error problem) => failed problem
  | none => panicked

end Outcome

/-- The tokens that are left. -/
abbrev Tokens := List (Nat × Token)

/-- A function that takes tokens from the front of those that are left. -/
abbrev Parser := StateT Tokens Outcome

namespace Parser

/-- The next token, if any. -/
def peek : Parser (Option Token) := do return (← get).head?.map Prod.snd

/-- Take the next token, if any. -/
def advance : Parser (Option Token) := do
  match ← get with
  | [] => return none
  | (_, token) :: rest => do
    set rest
    return some token

/-- The position of the next token, and the greatest number at the end. -/
def currentPos : Parser Nat := do return ((← get).head?.map Prod.fst).getD (2 ^ 64 - 1)

/-- Give up. -/
def fail {α : Type} (pos : Nat) (msg : String) : Parser α := StateT.lift (.failed ⟨pos, msg⟩)

/-- What cannot be reached. -/
def unreachable {α : Type} : Parser α := StateT.lift .panicked

/-- Repeat a part while the next token is of a kind, at most some times. -/
def loop {α : Type} (test : Option Token → Bool) (item : Parser α) : Nat → Parser (List α)
  | 0 => unreachable
  | rounds + 1 => do
    if test (← peek) then do
      let first ← item
      let others ← loop test item rounds
      return first :: others
    else return []

/-- Repeat a part while the next token is of a kind. -/
def repeatWhile {α : Type} (test : Option Token → Bool) (item : Parser α) : Parser (List α) := do
  loop test item ((← get).length + 1)

/-- A part, and more of them behind commas. -/
def separated {α : Type} (item : Parser α) : Parser (List α) := do
  let first ← item
  let others ← repeatWhile (· = some .comma) (do
    let _ ← advance
    item)
  return first :: others

/-- Whether a token is a keyword, in whatever case. -/
def isKeyword (keyword : String) : Option Token → Bool
  | some (.ident name) => name.toLower == keyword.toLower
  | _ => false

/-- Whether the next token is a keyword. -/
def peekKeyword (keyword : String) : Parser Bool := do return isKeyword keyword (← peek)

/-- Whether a token starts a relationship. -/
def startsRel : Option Token → Bool
  | some .dash | some .leftArrow => true
  | _ => false

/-- Whether a name is that of a clause. -/
def isClauseKeyword (name : String) : Bool :=
  ["MATCH", "WHERE", "AND", "RETURN", "LIMIT", "VECTOR_NEAR", "CREATE", "MERGE", "SET", "DELETE",
    "WITH", "ORDER", "BY", "SKIP", "ASC", "DESC", "AS", "COUNT", "COLLECT", "SUM", "AVG", "MIN",
    "MAX", "CONTAINS", "STARTS", "CALL", "YIELD"].contains name.toUpper

section Debug

variable (debug : DebugText)

/-- An optional token as it is shown in messages. -/
def showOption : Option Token → String
  | some token => "Some(" ++ debug.token token ++ ")"
  | none => "None"

/-- Take a token that must be a certain one. -/
def expect (expected : Token) : Parser Unit := do
  let pos ← currentPos
  match ← peek with
  | some token =>
    if token = expected then do
      let _ ← advance
      return ()
    else fail pos ("expected " ++ debug.token expected ++ ", got " ++ debug.token token)
  | none => fail pos ("expected " ++ debug.token expected ++ ", got end of input")

/-- Take a name. -/
def expectIdent : Parser String := do
  let pos ← currentPos
  match ← peek with
  | some (.ident name) => do
    let _ ← advance
    return name
  | some other => fail pos ("expected identifier, got " ++ debug.token other)
  | none => fail pos "expected identifier, got end of input"

/-- Take an integer. -/
def expectInt : Parser UInt64 := do
  let pos ← currentPos
  match ← peek with
  | some (.int word) => do
    let _ ← advance
    return word
  | some other => fail pos ("expected integer, got " ++ debug.token other)
  | none => fail pos "expected integer, got end of input"

/-- Take a string, or give up with a message. -/
def expectStr (expectation : String) : Parser String := do
  let pos ← currentPos
  match ← peek with
  | some (.str text) => do
    let _ ← advance
    return text
  | other => fail pos (expectation ++ ", got " ++ showOption debug other)

/-- A literal or a parameter. -/
def parseLiteral : Parser CypherValue := do
  let pos ← currentPos
  match ← peek with
  | some (.str text) => do
    let _ ← advance
    return .str text
  | some (.int word) => do
    let _ ← advance
    return .int word
  | some (.float bits) => do
    let _ ← advance
    return .float bits
  | some (.param name) => do
    let _ ← advance
    return .param name
  | some (.ident name) =>
    if name.toLower = "true" then do
      let _ ← advance
      return .bool true
    else if name.toLower = "false" then do
      let _ ← advance
      return .bool false
    else fail pos ("expected literal value, got identifier " ++ debug.text name)
  | some other => fail pos ("expected literal value, got " ++ debug.token other)
  | none => fail pos "expected literal value, got end of input"

/-- A number of hits or a width, which must be positive and is cut to 32 bits. -/
def parseCount (message : String) : Parser Nat := do
  let word ← expectInt debug
  if Value.signed word ≤ 0 then fail (← currentPos) message
  else return word.toNat % 2 ^ 32

/-- The width of a vector search, when it is given; `clause` is how messages name the clause. -/
def parseEf (clause : String) : Parser (Option Nat) := do
  if (← peek) = some .comma then do
    let _ ← advance
    let name ← expectIdent debug
    if name.toLower ≠ "ef" then
      fail (← currentPos) (clause ++ ": expected 'ef', got " ++ debug.text name)
    else do
      expect debug .eq
      let ef ← parseCount debug (clause ++ ": ef must be a positive integer")
      return some ef
  else return none

/-- The arguments of a vector search: a name, a space, and the counts. -/
def parseVectorArguments (clause : String) : Parser (String × String × Nat × Option Nat) := do
  expect debug .lparen
  let name ← expectIdent debug
  expect debug .comma
  let space ← expectStr debug (clause ++ ": expected string literal for space name")
  expect debug .comma
  let k ← parseCount debug (clause ++ ": k must be a positive integer")
  let ef ← parseEf debug clause
  expect debug .rparen
  return (name, space, k, ef)

/-- A leading call of a vector search, behind its keyword. -/
def parseCallClause : Parser CallClause := do
  let pos ← currentPos
  let procedure ← expectIdent debug
  if procedure.toLower ≠ "vector_near" then
    fail pos ("unknown procedure '" ++ procedure ++ "'; only VECTOR_NEAR is supported")
  else do
    let (_, space, k, ef) ← parseVectorArguments debug "CALL VECTOR_NEAR"
    let pos ← currentPos
    if ← peekKeyword "YIELD" then do
      let _ ← advance
      let yieldVars ← separated (expectIdent debug)
      return ⟨space, k, ef, yieldVars⟩
    else fail pos "CALL clause requires YIELD"

/-- The comparison operator a token stands for. -/
def comparison : Option Token → Option ComparisonOp
  | some .gt => some .gt
  | some .gte => some .gte
  | some .lt => some .lt
  | some .lte => some .lte
  | some .ne => some .ne
  | _ => none

/-- A condition on a property of a variable, behind that. -/
def parseComparison (first : String) : Parser WhereClause := do
  expect debug .dot
  let prop ← expectIdent debug
  if ← peekKeyword "CONTAINS" then do
    let _ ← advance
    let text ← expectStr debug "CONTAINS expects a string"
    return .contains first prop text
  else if ← peekKeyword "STARTS" then do
    let _ ← advance
    let pos ← currentPos
    if ← peekKeyword "WITH" then do
      let _ ← advance
      let text ← expectStr debug "STARTS WITH expects a string"
      return .startsWith first prop text
    else fail pos "expected WITH after STARTS"
  else if (← peek) = some .eq then do
    let _ ← advance
    if (← peek) = some .tilde then do
      let _ ← advance
      let text ← expectStr debug "=~ expects a regex string"
      return .regex first prop text
    else do
      let value ← parseLiteral debug
      return .propertyEq first prop value
  else if (comparison (← peek)).isSome then do
    match comparison (← advance) with
    | some op => do
      let value ← parseLiteral debug
      return .propertyCmp first prop op value
    | none => unreachable
  else fail (← currentPos) "expected comparison operator or =~ after property name"

/-- A condition. -/
def parseCondition : Parser WhereClause := do
  let first ← expectIdent debug
  if first.toLower = "vector_near" then do
    let (var, space, k, ef) ← parseVectorArguments debug "VECTOR_NEAR"
    return .vectorNear var space k ef
  else parseComparison debug first

/-- The conditions of a clause. -/
def parseWhereClause : Parser (List WhereClause) := do
  let first ← parseCondition debug
  let others ← repeatWhile (isKeyword "AND") (do
    let _ ← advance
    parseCondition debug)
  return first :: others

/-- The conditions of a clause that may be missing. -/
def parseOptionalWhere : Parser (List WhereClause) := do
  if ← peekKeyword "WHERE" then do
    let _ ← advance
    parseWhereClause debug
  else return []

/-- The conditions of the clause between matching and returning, whose variables are not kept. -/
def parseWithClause : Parser (List WhereClause) := do
  let _ ← separated (expectIdent debug)
  parseOptionalWhere debug

/-- A sort key with its direction. -/
def parseOrderSpec : Parser OrderSpec := do
  let key ← expectIdent debug
  if ← peekKeyword "ASC" then do
    let _ ← advance
    return ⟨key, .asc⟩
  else if ← peekKeyword "DESC" then do
    let _ ← advance
    return ⟨key, .desc⟩
  else return ⟨key, .asc⟩

/-- A property with its value. -/
def parseProp : Parser (String × CypherValue) := do
  let key ← expectIdent debug
  expect debug .colon
  let value ← parseLiteral debug
  return (key, value)

/-- The properties between braces. -/
def parseProps : Parser (List (String × CypherValue)) := do
  if (← peek) ≠ some .rbrace then separated (parseProp debug) else return []

/-- Properties in braces. -/
def parsePropMap : Parser (List (String × CypherValue)) := do
  expect debug .lbrace
  let props ← parseProps debug
  expect debug .rbrace
  return props

/-- The variable of a node, if it has one. -/
def parseNodeVar : Parser (Option String) := do
  match ← peek with
  | some (.ident name) =>
    if isClauseKeyword name then return none
    else do
      let _ ← advance
      return some name
  | _ => return none

/-- The label of a node, if it has one. -/
def parseNodeLabel : Parser (Option String) := do
  if (← peek) = some .colon then do
    let _ ← advance
    let name ← expectIdent debug
    return some name
  else return none

/-- The properties of a node, if it has any. -/
def parseNodeProps : Parser (List (String × CypherValue)) := do
  if (← peek) = some .lbrace then parsePropMap debug else return []

/-- A node. -/
def parseNodePat : Parser NodePat := do
  expect debug .lparen
  let var ← parseNodeVar
  let label ← parseNodeLabel debug
  let props ← parseNodeProps debug
  expect debug .rparen
  return ⟨var, label, props⟩

/-- The variable of a relationship: a name before a colon. -/
def parseRelVar : Parser (Option String) := do
  match ← get with
  | (_, .ident _) :: (_, .colon) :: _ => do
    let name ← expectIdent debug
    return some name
  | _ => return none

/-- How long a path may be: whether it is one, and its bound. -/
def parseHops : Parser (Bool × Option Nat) := do
  if (← peek) = some .star then do
    let _ ← advance
    match ← peek with
    | some (.int n) => do
      let _ ← advance
      if (← peek) = some .dotDot then do
        let _ ← advance
        let most ← expectInt debug
        return (true, some most.toNat)
      else return (true, some n.toNat)
    | _ => return (true, none)
  else return (false, none)

/-- A relationship in brackets. -/
def parseRelBody : Parser RelPat := do
  expect debug .lbracket
  let var ← parseRelVar debug
  expect debug .colon
  let predicate ← expectIdent debug
  let (recursive, maxHops) ← parseHops debug
  expect debug .rbracket
  return ⟨var, predicate, recursive, maxHops⟩

/-- A relationship with its direction. -/
def parseRelDirection : Parser (RelPat × Direction) := do
  match ← peek with
  | some .dash => do
    let _ ← advance
    let rel ← parseRelBody debug
    expect debug .arrow
    return (rel, .out)
  | some .leftArrow => do
    let _ ← advance
    let rel ← parseRelBody debug
    expect debug .dash
    return (rel, .into)
  | _ => fail (← currentPos) "expected '-' or '<-'"

/-- A relationship and the node it leads to. -/
def parseHop : Parser HopPat := do
  let (rel, direction) ← parseRelDirection debug
  let target ← parseNodePat debug
  return ⟨rel, direction, target⟩

/-- A path. -/
def parsePath : Parser CypherPath := do
  let start ← parseNodePat debug
  let hops ← repeatWhile startsRel (parseHop debug)
  return ⟨start, hops⟩

/-- The paths of a matching clause. -/
def parseMatchClause : Parser (List CypherPath) := separated (parsePath debug)

/-- The alias of an aggregate that started at a position. -/
def parseAggregation (pos : Nat) (func : AggFunc) : Parser ReturnItem := do
  let here ← currentPos
  if ← peekKeyword "AS" then do
    let _ ← advance
    let name ← expectIdent debug
    return .aggregation func name
  else fail here ("aggregate at position " ++ toString pos ++ " requires AS alias")

/-- A property of a variable, in parentheses. -/
def parsePropArgument : Parser (String × String) := do
  expect debug .lparen
  let var ← expectIdent debug
  expect debug .dot
  let prop ← expectIdent debug
  expect debug .rparen
  return (var, prop)

/-- A variable in parentheses. -/
def parseVarArgument : Parser String := do
  expect debug .lparen
  let var ← expectIdent debug
  expect debug .rparen
  return var

/-- What is counted. -/
def parseCountArgument : Parser AggFunc := do
  if (← peek) = some .star then do
    let _ ← advance
    return .countStar
  else do
    let var ← expectIdent debug
    return .count var

/-- One thing to return. -/
def parseOneReturnItem : Parser ReturnItem := do
  let pos ← currentPos
  let name ← expectIdent debug
  let upper := name.toUpper
  if upper = "ID" ∨ upper = "ELEMENTID" then do
    let relVar ← parseVarArgument debug
    return .edgeId relVar
  else if upper = "COUNT" then do
    expect debug .lparen
    let func ← parseCountArgument debug
    expect debug .rparen
    parseAggregation debug pos func
  else if upper = "COLLECT" then do
    let var ← parseVarArgument debug
    parseAggregation debug pos (.collect var)
  else if upper = "SUM" ∨ upper = "AVG" ∨ upper = "MIN" ∨ upper = "MAX" then do
    let (var, prop) ← parsePropArgument debug
    if upper = "SUM" then parseAggregation debug pos (.sum var prop)
    else if upper = "AVG" then parseAggregation debug pos (.avg var prop)
    else if upper = "MIN" then parseAggregation debug pos (.min var prop)
    else if upper = "MAX" then parseAggregation debug pos (.max var prop)
    else unreachable
  else if (← peek) = some .dot then do
    let _ ← advance
    let prop ← expectIdent debug
    return .propProjection name prop
  else return .var name

/-- A number behind a keyword, if the keyword is there; it must not be negative. -/
def parseBound (keyword : String) : Parser (Option Nat) := do
  if ← peekKeyword keyword then do
    let _ ← advance
    let n ← expectInt debug
    if Value.signed n < 0 then fail (← currentPos) (keyword ++ " must be non-negative")
    else return some n.toNat
  else return none

/-- The sort keys, if there are any. -/
def parseOrderBy : Parser (List OrderSpec) := do
  if ← peekKeyword "ORDER" then do
    let _ ← advance
    let pos ← currentPos
    if ← peekKeyword "BY" then do
      let _ ← advance
      separated (parseOrderSpec debug)
    else fail pos "expected BY after ORDER"
  else return []

/-- The leading call, if there is one. -/
def parseCall : Parser (Option CallClause) := do
  if ← peekKeyword "CALL" then do
    let _ ← advance
    let call ← parseCallClause debug
    return some call
  else return none

/-- The paths to match, which only a query with a leading call can do without. -/
def parseMatch (call : Option CallClause) : Parser (List CypherPath) := do
  let pos ← currentPos
  if ← peekKeyword "MATCH" then do
    let _ ← advance
    parseMatchClause debug
  else if call.isNone then fail pos "query must start with MATCH or CALL"
  else return []

/-- What is returned. -/
def parseReturn : Parser (List ReturnItem) := do
  let pos ← currentPos
  if ← peekKeyword "RETURN" then do
    let _ ← advance
    separated (parseOneReturnItem debug)
  else fail pos "expected RETURN clause"

/-- The end of the tokens; `place` is what a message says the next one comes after. -/
def expectEnd (place : String) : Parser Unit := do
  match ← peek with
  | some token =>
    fail (← currentPos) ("unexpected token " ++ debug.token token ++ " after " ++ place)
  | none => return ()

/-- The conditions behind the clause between matching and returning, if there is one. -/
def parseOptionalWith : Parser (List WhereClause) := do
  if ← peekKeyword "WITH" then do
    let _ ← advance
    parseWithClause debug
  else return []

/-- A query. -/
def parseQuery : Parser CypherQuery := do
  let callClause ← parseCall debug
  let matchPatterns ← parseMatch debug callClause
  let whereClauses ← parseOptionalWhere debug
  let withFilters ← parseOptionalWith debug
  let returnItems ← parseReturn debug
  let orderBy ← parseOrderBy debug
  let skip ← parseBound debug "SKIP"
  let limit ← parseBound debug "LIMIT"
  expectEnd debug "query"
  return ⟨callClause, matchPatterns, whereClauses, returnItems, limit, orderBy, skip, withFilters,
    none⟩

/-- A node that a clause creates, or a relationship between the nodes of two variables. -/
def parseCreateClause : Parser WriteOp := do
  let node ← parseNodePat debug
  if startsRel (← peek) then do
    let (rel, direction) ← parseRelDirection debug
    let other ← parseNodePat debug
    if rel.recursive then
      fail (← currentPos) "CREATE does not support transitive relationships"
    else do
      let (subject, object) := match direction with
        | .out => (node.var, other.var)
        | .into => (other.var, node.var)
      match subject, object with
      | none, _ => fail (← currentPos) "CREATE relation: subject node must have a variable"
      | some _, none => fail (← currentPos) "CREATE relation: object node must have a variable"
      | some subject, some object => return .createRelation subject rel.predicate object
  else return .createNode node.var node.label node.props

/-- What a clause creates, in at most some rounds; it ends where no node or no comma follows. -/
def createClauses : Nat → Parser (List WriteOp)
  | 0 => unreachable
  | rounds + 1 => do
    if (← peek) ≠ some .lparen then return []
    else do
      let first ← parseCreateClause debug
      if (← peek) = some .comma then do
        let _ ← advance
        let others ← createClauses rounds
        return first :: others
      else return [first]

/-- What a clause creates. -/
def parseCreateClauses : Parser (List WriteOp) := do
  createClauses debug ((← get).length + 1)

/-- A property that a clause sets. -/
def parseSetClause : Parser SetClause := do
  let var ← expectIdent debug
  expect debug .dot
  let key ← expectIdent debug
  expect debug .eq
  let value ← parseLiteral debug
  return ⟨var, key, value⟩

/-- The operations of a write. -/
def parseWriteStatement : Parser (List WriteOp) := do
  let pos ← currentPos
  if ← peekKeyword "CREATE" then do
    let _ ← advance
    parseCreateClauses debug
  else if ← peekKeyword "MERGE" then do
    let _ ← advance
    let node ← parseNodePat debug
    return [.merge node.var node.label node.props]
  else if ← peekKeyword "SET" then do
    let _ ← advance
    let clauses ← separated (parseSetClause debug)
    return [.set clauses]
  else if ← peekKeyword "DELETE" then do
    let _ ← advance
    let vars ← separated (expectIdent debug)
    return [.delete vars]
  else fail pos "expected CREATE, MERGE, SET, or DELETE"

end Debug

end Parser

/-- A parsed statement. -/
inductive CypherStatement where
  /-- A query. -/
  | read (query : CypherQuery)
  /-- The operations of a write. -/
  | write (ops : List WriteOp)

/-- A compiled write. -/
structure CompiledWrite where
  /-- The matching part, if any. -/
  matchQuery : Option CompiledQuery
  /-- The operations. -/
  writes : List WriteOp
  /-- The graph of a graph clause. -/
  graph : Option String

/-- A statement in the graph of a graph clause, which a write must not have. -/
def CypherStatement.inGraph : CypherStatement → Option String → Outcome CypherStatement
  | read query, graph => .done (.read { query with graph })
  | write _, some _ => .failed ⟨0, "USE GRAPH with a write statement: use parse_write"⟩
  | write ops, none => .done (.write ops)

/-- A write in the graph of a graph clause. -/
def CompiledWrite.inGraph (compiled : CompiledWrite) (iri : String) : CompiledWrite where
  matchQuery := compiled.matchQuery.map fun query =>
    { query.scopeTo (.iri iri) with graph := some iri }
  writes := compiled.writes
  graph := some iri

section Debug

variable (debug : DebugText)

/-- A query or a write. -/
def Parser.parseStatementInner : Parser CypherStatement := do
  if ← peekKeyword "MATCH" then return .read (← parseQuery debug)
  else return .write (← parseWriteStatement debug)

section Names

variable (ext : External) (prefixes : String → Option String)

/-- The matching part of a write, if it has one. -/
def Parser.parseMatchPart : Parser (Option CompiledQuery) := do
  if ← peekKeyword "MATCH" then do
    let _ ← advance
    let matchPatterns ← parseMatchClause debug
    let whereClauses ← parseOptionalWhere debug
    let query : CypherQuery := ⟨none, matchPatterns, whereClauses, [], none, [], none, [], none⟩
    return some (query.compileWithVocabulary ext Vocabulary.default prefixes)
  else return none

/-- A write that may have a matching part. -/
def Parser.parseCompiledWrite : Parser CompiledWrite := do
  let matchQuery ← parseMatchPart debug ext prefixes
  let pos ← currentPos
  if (← peek).isNone then fail pos "expected a write clause (CREATE/MERGE/SET/DELETE)"
  else do
    let writes ← parseWriteStatement debug
    return ⟨matchQuery, writes, none⟩

end Names

end Debug

/-- Whether a character is white space. -/
def isWhitespace (c : Char) : Bool :=
  (0x9 ≤ c.toNat && c.toNat ≤ 0xd) || c.toNat == 0x20 || c.toNat == 0x85 || c.toNat == 0xa0 ||
    c.toNat == 0x1680 || (0x2000 ≤ c.toNat && c.toNat ≤ 0x200a) || c.toNat == 0x2028 ||
    c.toNat == 0x2029 || c.toNat == 0x202f || c.toNat == 0x205f || c.toNat == 0x3000

/-- A text without the white space at its start. -/
def trimStart (text : List Char) : List Char := text.dropWhile isWhitespace

/-- The number of bytes of a text. -/
def byteLen (text : List Char) : Nat := (utf8 (String.ofList text)).length

/-- A text cut behind a number of bytes; there must be a boundary of characters there. -/
def sliceAt : List Char → Nat → Option (List Char × List Char)
  | text, 0 => some ([], text)
  | [], _ + 1 => none
  | c :: text, n + 1 =>
    if c.utf8Size ≤ n + 1 then (sliceAt text (n + 1 - c.utf8Size)).map fun (front, back) =>
      (c :: front, back)
    else none

/-- Whether a text starts with a word and a separator behind it; slicing may panic. -/
def startsWithWord (text : List Char) (word : String) : Outcome Bool :=
  if byteLen text < byteLen word.toList then .done false
  else match sliceAt text (byteLen word.toList) with
    | none => .panicked
    | some (front, back) =>
      .done ((String.ofList front).toLower = word.toLower &&
        back.head?.any fun c => isWhitespace c || c == '<')

/-- A text without its first bytes; slicing may panic. -/
def sliceFrom (text : List Char) (n : Nat) : Outcome (List Char) :=
  match sliceAt text n with
  | none => .panicked
  | some (_, back) => .done back

/-- The text behind the second word of a graph clause, if that is there. -/
def skipGraphWord (rest : List Char) : Outcome (List Char) := do
  if ← startsWithWord rest "GRAPH" then return trimStart (← sliceFrom rest 5)
  else return rest

/-- The graph in angle brackets that a text starts with, and the text behind it. -/
def readGraphIri (pos : Nat) : List Char → Outcome (Option String × List Char)
  | '<' :: body =>
    let iri := body.takeWhile (· ≠ '>')
    match body.dropWhile (· ≠ '>') with
    | [] => .failed ⟨pos, "unterminated graph IRI"⟩
    | _ :: after =>
      if iri = [] ∨ iri.any isWhitespace then .failed ⟨pos, "invalid graph IRI"⟩
      else .done (some (String.ofList iri), after)
  | _ => .failed ⟨pos, "USE GRAPH expects an IRI in angle brackets"⟩

/-- The graph of a leading graph clause, and the rest of a statement. -/
def splitUseGraph (input : List Char) : Outcome (Option String × List Char) := do
  let trimmed := trimStart input
  if ← startsWithWord trimmed "USE" then do
    let behind ← sliceFrom trimmed 3
    let rest ← skipGraphWord (trimStart behind)
    readGraphIri (byteLen input - byteLen rest) rest
  else return (none, input)

section Library

variable (parseF64 : String → Option UInt64) (debug : DebugText)

/-- The tokens of a text. -/
def lex (text : List Char) : Outcome Tokens :=
  Outcome.ofLoop (tokenize parseF64 debug (String.ofList text))

/-- Parse a query. -/
def parse (input : String) : Outcome CypherQuery := do
  let (graph, text) ← splitUseGraph input.toList
  let tokens ← lex parseF64 debug text
  let (query, _) ← (Parser.parseQuery debug).run tokens
  return { query with graph }

/-- Parse a query or a write. -/
def parseStatement (input : String) : Outcome CypherStatement := do
  let (graph, text) ← splitUseGraph input.toList
  let tokens ← lex parseF64 debug text
  let (statement, rest) ← (Parser.parseStatementInner debug).run tokens
  let statement ← statement.inGraph graph
  let _ ← (Parser.expectEnd debug "statement").run rest
  return statement

section Names

variable (ext : External) (prefixes : String → Option String)

/-- Parse a write that may have a matching part. -/
def parseWrite (input : String) : Outcome CompiledWrite := do
  let (graph, text) ← splitUseGraph input.toList
  let tokens ← lex parseF64 debug text
  let (compiled, rest) ← (Parser.parseCompiledWrite debug ext prefixes).run tokens
  let _ ← (Parser.expectEnd debug "write statement").run rest
  match graph with
  | none => return compiled
  | some iri => return compiled.inGraph iri

end Names

end Library

/-- Whether a text starts with the keyword of a write. -/
def isWriteStatement (input : String) : Outcome Bool :=
  let starts (text : List Char) : Bool :=
    let upper := ((trimStart text).map Char.toUpper)
    ["CREATE", "MERGE", "SET", "DELETE"].any fun keyword => keyword.toList.isPrefixOf upper
  match splitUseGraph input.toList with
  | .done (_, rest) => .done (starts rest)
  | .failed _ => .done (starts input.toList)
  | .panicked => .panicked

end Cypher

end Polargraph
