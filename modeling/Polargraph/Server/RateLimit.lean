import Mathlib.Algebra.Order.Field.Rat

/-! Per-client rate limiting with token buckets; times and tokens are exact. -/

namespace Polargraph

namespace RateLimit

/-- Method paths that bypass rate limiting. -/
def EXEMPT_PATHS : List String := ["/polargraph.v1.PolarGraphService/ReplicaStatus"]

/-- Buckets idle for longer than this are removed. -/
def STALE_SECS : Nat := 60

/-- The clean-up runs once every this many requests. -/
def CLEANUP_INTERVAL : Nat := 1000

/-- The tokens of a client. -/
structure TokenBucket where
  /-- How many there are. -/
  tokens : ℚ
  /-- When they were last refilled, in seconds. -/
  lastRefill : ℚ

section Clients

variable {κ : Type}

/-- The bucket of each client that has one. -/
abbrev Buckets (κ : Type) := κ → Option TokenBucket

/-- A request: when it arrives, whose it is, and whether the clean-up runs first. -/
structure Request (κ : Type) where
  /-- The time, in seconds. -/
  time : ℚ
  /-- The client. -/
  client : κ
  /-- Whether the clean-up runs. -/
  cleans : Bool

/-- Keep the buckets refilled after a time. -/
def retain (cutoff : ℚ) (buckets : Buckets κ) : Buckets κ :=
  fun client => (buckets client).filter fun b => decide (cutoff < b.lastRefill)

/-- Add the tokens of the time since the last refill, up to the most a bucket holds. -/
def refill (maxRps : Nat) (now : ℚ) (bucket : TokenBucket) : TokenBucket where
  tokens := min (bucket.tokens + max 0 (now - bucket.lastRefill) * maxRps) maxRps
  lastRefill := now

/-- Take a token, if there is one. -/
def consume (bucket : TokenBucket) : Bool × TokenBucket :=
  if 1 ≤ bucket.tokens then (true, { bucket with tokens := bucket.tokens - 1 }) else (false, bucket)

variable [DecidableEq κ]

/-- Decide a request that is not exempt. -/
def serve (maxRps : Nat) (buckets : Buckets κ) (request : Request κ) : Bool × Buckets κ :=
  if maxRps = 0 then (true, buckets)
  else
    let buckets := if request.cleans then retain (request.time - STALE_SECS) buckets else buckets
    let bucket := (buckets request.client).getD ⟨maxRps, request.time⟩
    let taken := consume (refill maxRps request.time bucket)
    (taken.1, Function.update buckets request.client (some taken.2))

/-- Decide a request to a path as one more that is counted, or let an exempt one pass. -/
def call (maxRps : Nat) (state : Buckets κ × Nat) (path : String) (now : ℚ) (client : κ) :
    Bool × (Buckets κ × Nat) :=
  if maxRps = 0 ∨ path ∈ EXEMPT_PATHS then (true, state)
  else
    let cleans := decide (state.2 % CLEANUP_INTERVAL = 0 ∧ 0 < state.2)
    let served := serve maxRps state.1 ⟨now, client, cleans⟩
    (served.1, served.2, state.2 + 1)

/-- The decisions on some requests, one after another. -/
def decisions (maxRps : Nat) : Buckets κ → List (Request κ) → List Bool
  | _, [] => []
  | buckets, request :: rest =>
    let served := serve maxRps buckets request
    served.1 :: decisions maxRps served.2 rest

/-- How many requests of a client are admitted from one time to another. -/
def admitted (maxRps : Nat) (buckets : Buckets κ) (requests : List (Request κ)) (client : κ)
    (first last : ℚ) : Nat :=
  ((requests.zip (decisions maxRps buckets requests)).filter fun (request, ok) =>
    ok && decide (request.client = client ∧ first ≤ request.time ∧ request.time ≤ last)).length

end Clients

end RateLimit

end Polargraph
