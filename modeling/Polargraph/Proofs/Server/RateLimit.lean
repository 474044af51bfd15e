import Mathlib.Tactic.Linarith
import Mathlib.Tactic.Ring
import Polargraph.Server.RateLimit

/-! The rate limiter admits no more than its bound, and removing idle buckets changes nothing. -/

namespace Polargraph

namespace RateLimit

variable {κ : Type} {maxRps : Nat}

/-- The tokens a client would find at a time. -/
def available (maxRps : Nat) (buckets : Buckets κ) (client : κ) (now : ℚ) : ℚ :=
  (refill maxRps now ((buckets client).getD ⟨maxRps, now⟩)).tokens

/-- The buckets were refilled before a time, and hold no debt. -/
def Settled (buckets : Buckets κ) (now : ℚ) : Prop :=
  ∀ client bucket, buckets client = some bucket → bucket.lastRefill ≤ now ∧ 0 ≤ bucket.tokens

/-- Some buckets are others without idle ones. -/
def Forgets (kept all : Buckets κ) (now : ℚ) : Prop :=
  ∀ client, kept client = all client ∨ kept client = none ∧
    ∃ bucket, all client = some bucket ∧ bucket.lastRefill ≤ now - STALE_SECS

/-- What a client finds is not negative, nor more than a full bucket. -/
theorem available_bounds {buckets : Buckets κ} {now : ℚ} (settled : Settled buckets now)
    (client : κ) :
    0 ≤ available maxRps buckets client now ∧ available maxRps buckets client now ≤ maxRps := by
  refine ⟨le_min ?_ (Nat.cast_nonneg _), min_le_right _ _⟩
  have gain : 0 ≤ max 0 (now - ((buckets client).getD ⟨maxRps, now⟩).lastRefill) * (maxRps : ℚ) :=
    mul_nonneg (le_max_left _ _) (Nat.cast_nonneg _)
  have held : 0 ≤ ((buckets client).getD ⟨maxRps, now⟩).tokens := by
    cases found : buckets client with
    | none => exact Nat.cast_nonneg _
    | some bucket => exact (settled client bucket found).2
  linarith

/-- What a client finds grows by the rate. -/
theorem available_later {buckets : Buckets κ} {now later : ℚ} (settled : Settled buckets now)
    (order : now ≤ later) (client : κ) : available maxRps buckets client later ≤
      available maxRps buckets client now + (later - now) * maxRps := by
  have gain : 0 ≤ (later - now) * (maxRps : ℚ) :=
    mul_nonneg (sub_nonneg.mpr order) (Nat.cast_nonneg _)
  unfold available refill
  cases found : buckets client with
  | none =>
    simp only [Option.getD_none, sub_self, max_self, zero_mul, add_zero, min_self]
    linarith
  | some bucket =>
    have before := (settled client bucket found).1
    simp only [Option.getD_some]
    rw [max_eq_right (by linarith), max_eq_right (by linarith), ← min_add_add_right]
    exact min_le_min (by linarith) (by linarith)

variable [DecidableEq κ]

/-- What a request finds decides it, and is what remains but for the token it takes. -/
theorem serve_fst {buckets : Buckets κ} {request : Request κ} (active : 0 < maxRps)
    (whole : request.cleans = false) :
    (serve maxRps buckets request).1 =
      decide (1 ≤ available maxRps buckets request.client request.time) := by
  unfold serve consume
  rw [if_neg active.ne', whole]
  simp only [Bool.false_eq_true, if_false]
  split_ifs with enough
  · exact (decide_eq_true enough).symm
  · exact (decide_eq_false enough).symm

/-- A request leaves its client the tokens it found but for the one it takes. -/
theorem serve_snd {buckets : Buckets κ} {request : Request κ} (active : 0 < maxRps)
    (whole : request.cleans = false) :
    (serve maxRps buckets request).2 = Function.update buckets request.client (some
      ⟨available maxRps buckets request.client request.time -
        (if (serve maxRps buckets request).1 then 1 else 0), request.time⟩) := by
  rw [serve_fst active whole]
  unfold serve consume
  rw [if_neg active.ne', whole]
  simp only [Bool.false_eq_true, if_false, decide_eq_true_eq]
  congr 2
  by_cases enough : 1 ≤ available maxRps buckets request.client request.time
  · rw [if_pos enough]
    unfold available at enough
    rw [if_pos enough]
    rfl
  · rw [if_neg enough, sub_zero]
    unfold available at enough
    rw [if_neg enough]
    rfl

/-- A request leaves the buckets settled. -/
theorem Settled.serve {buckets : Buckets κ} {request : Request κ} (active : 0 < maxRps)
    (whole : request.cleans = false) {now : ℚ} (settled : Settled buckets now)
    (order : now ≤ request.time) : Settled (serve maxRps buckets request).2 request.time := by
  have fresh : Settled buckets request.time := fun client bucket found =>
    ⟨(settled client bucket found).1.trans order, (settled client bucket found).2⟩
  intro client bucket found
  rw [serve_snd active whole, serve_fst active whole] at found
  by_cases own : client = request.client
  · subst own
    rw [Function.update_self] at found
    cases found
    have bounds := (@available_bounds κ maxRps _ _ fresh request.client).1
    refine ⟨le_refl _, ?_⟩
    simp only [decide_eq_true_eq]
    split_ifs with enough <;> linarith
  · rw [Function.update_of_ne own] at found
    exact fresh client bucket found

/-- One more request counts if it is admitted, of the client and in time. -/
theorem admitted_cons (buckets : Buckets κ) (request : Request κ) (rest : List (Request κ))
    (client : κ) (first last : ℚ) : admitted maxRps buckets (request :: rest) client first last =
      (if (serve maxRps buckets request).1 = true ∧ request.client = client ∧ first ≤ request.time ∧
        request.time ≤ last then 1 else 0) +
      admitted maxRps (serve maxRps buckets request).2 rest client first last := by
  unfold admitted
  simp only [decisions, List.zip_cons_cons, List.filter_cons, Bool.and_eq_true, decide_eq_true_eq]
  split_ifs <;> simp [Nat.add_comm]

/-- Requests after the last time do not count. -/
theorem admitted_late {buckets : Buckets κ} {requests : List (Request κ)} {last : ℚ}
    (late : ∀ request ∈ requests, last < request.time) (client : κ) (first : ℚ) :
    admitted maxRps buckets requests client first last = 0 := by
  rw [admitted, List.length_eq_zero_iff, List.filter_eq_nil_iff]
  rintro ⟨request, ok⟩ member
  have after := late request (List.of_mem_zip member).1
  simp only [Bool.and_eq_true, decide_eq_true_eq]
  rintro ⟨_, _, _, before⟩
  exact absurd before (not_le.mpr after)

/-- From some time on a client is admitted what it finds and what is added until the last time. -/
theorem admitted_le_available {buckets : Buckets κ} {requests : List (Request κ)} (active : 0 < maxRps)
    (whole : ∀ request ∈ requests, request.cleans = false) {now : ℚ} (settled : Settled buckets now)
    (order : requests.Pairwise fun before after => before.time ≤ after.time)
    (after : ∀ request ∈ requests, now ≤ request.time) (client : κ) (first : ℚ) {last : ℚ}
    (within : now ≤ last) : (admitted maxRps buckets requests client first last : ℚ) ≤
      available maxRps buckets client now + (last - now) * maxRps := by
  -- The tokens a client finds pay for what it is admitted, request by request.
  induction requests generalizing buckets now with
  | nil =>
    have least := (@available_bounds κ maxRps _ _ settled client).1
    have gain : 0 ≤ (last - now) * (maxRps : ℚ) :=
      mul_nonneg (sub_nonneg.mpr within) (Nat.cast_nonneg _)
    simp only [admitted, List.zip_nil_left, List.filter_nil, List.length_nil, Nat.cast_zero]
    linarith
  | cons request rest ih =>
    obtain ⟨own, others⟩ := List.forall_mem_cons.mp whole
    obtain ⟨arrives, behind⟩ := List.forall_mem_cons.mp after
    obtain ⟨earliest, ordered⟩ := List.pairwise_cons.mp order
    have least := (@available_bounds κ maxRps _ _ settled client).1
    have gain : 0 ≤ (last - now) * (maxRps : ℚ) :=
      mul_nonneg (sub_nonneg.mpr within) (Nat.cast_nonneg _)
    by_cases inside : request.time ≤ last
    · have later := @available_later _ maxRps _ _ _ settled arrives client
      have more := ih others (settled.serve active own arrives) ordered earliest inside
      have fresh : Settled buckets request.time := fun client bucket found =>
        ⟨(settled client bucket found).1.trans arrives, (settled client bucket found).2⟩
      rw [admitted_cons, Nat.cast_add]
      have spent : (((if (serve maxRps buckets request).1 = true ∧ request.client = client ∧
          first ≤ request.time ∧ request.time ≤ last then 1 else 0 : Nat) : ℚ)) +
          available maxRps (serve maxRps buckets request).2 client request.time ≤
            available maxRps buckets client request.time := by
        have most := (@available_bounds κ maxRps _ _ fresh client).2
        rw [serve_snd active own]
        by_cases same : request.client = client
        · subst same
          simp only [available, Function.update_self, Option.getD_some, refill, sub_self, max_self,
            zero_mul, add_zero] at most ⊢
          refine le_trans (add_le_add_right (min_le_left _ _) _) ?_
          split_ifs with counts taken taken
          · simp
          · exact absurd counts.1 taken
          · simp
          · simp
        · rw [if_neg fun counts => same counts.2.1]
          simp [available, Function.update_of_ne (Ne.symm same)]
      linarith
    · rw [admitted_late (fun other member => ?_) client first]
      · simp only [Nat.cast_zero]
        linarith
      · rcases List.mem_cons.mp member with rfl | listed
        · exact not_le.mp inside
        · exact lt_of_lt_of_le (not_le.mp inside) (earliest other listed)

/-- Within any time a client is admitted a full bucket and what is added in that time. -/
theorem admitted_le {buckets : Buckets κ} {requests : List (Request κ)} (active : 0 < maxRps)
    (whole : ∀ request ∈ requests, request.cleans = false) {now : ℚ} (settled : Settled buckets now)
    (order : requests.Pairwise fun before after => before.time ≤ after.time)
    (after : ∀ request ∈ requests, now ≤ request.time) (client : κ) {first last : ℚ}
    (begins : now ≤ first) (within : first ≤ last) :
    (admitted maxRps buckets requests client first last : ℚ) ≤ maxRps + (last - first) * maxRps := by
  induction requests generalizing buckets now with
  | nil =>
    have gain : 0 ≤ (last - first) * (maxRps : ℚ) :=
      mul_nonneg (sub_nonneg.mpr within) (Nat.cast_nonneg _)
    have most : (0 : ℚ) ≤ maxRps := Nat.cast_nonneg _
    simp only [admitted, List.zip_nil_left, List.filter_nil, List.length_nil, Nat.cast_zero]
    linarith
  | cons request rest ih =>
    obtain ⟨own, others⟩ := List.forall_mem_cons.mp whole
    obtain ⟨arrives, behind⟩ := List.forall_mem_cons.mp after
    obtain ⟨earliest, ordered⟩ := List.pairwise_cons.mp order
    by_cases counts : first ≤ request.time
    · have fresh : Settled buckets first := fun client bucket found =>
        ⟨(settled client bucket found).1.trans begins, (settled client bucket found).2⟩
      have all : ∀ other ∈ request :: rest, first ≤ other.time := List.forall_mem_cons.mpr
        ⟨counts, fun other member => counts.trans (earliest other member)⟩
      have bound := admitted_le_available active whole fresh order all client first within
      have most := (@available_bounds κ maxRps _ _ fresh client).2
      linarith
    · rw [admitted_cons, if_neg fun held => counts held.2.2.1, Nat.zero_add]
      exact ih others (settled.serve active own arrives) ordered earliest (not_le.mp counts).le

/-- A bucket that was idle for long is refilled like a new one. -/
theorem refill_stale {bucket : TokenBucket} {now : ℚ} (stale : bucket.lastRefill ≤ now - STALE_SECS)
    (held : 0 ≤ bucket.tokens) : refill maxRps now bucket = refill maxRps now ⟨maxRps, now⟩ := by
  have idle : (60 : ℚ) ≤ max 0 (now - bucket.lastRefill) := by
    refine le_max_of_le_right ?_
    have cutoff : (STALE_SECS : ℚ) = 60 := by norm_num [STALE_SECS]
    linarith
  have most : (0 : ℚ) ≤ maxRps := Nat.cast_nonneg _
  have gain := mul_le_mul_of_nonneg_right idle most
  simp only [refill, sub_self, max_self, zero_mul, add_zero, min_self]
  rw [min_eq_right (by linarith)]

/-- Decisions are the same with and without idle buckets. -/
theorem decisions_forgets {kept all : Buckets κ} {requests : List (Request κ)} (active : 0 < maxRps)
    {now : ℚ} (settled : Settled all now) (forgets : Forgets kept all now)
    (order : requests.Pairwise fun before after => before.time ≤ after.time)
    (after : ∀ request ∈ requests, now ≤ request.time) : decisions maxRps kept requests =
      decisions maxRps all (requests.map fun request => { request with cleans := false }) := by
  induction requests generalizing kept all now with
  | nil => rfl
  | cons request rest ih =>
    obtain ⟨arrives, _⟩ := List.forall_mem_cons.mp after
    obtain ⟨earliest, ordered⟩ := List.pairwise_cons.mp order
    obtain ⟨cleaned, clean⟩ : ∃ cleaned, (if request.cleans then
      retain (request.time - STALE_SECS) kept else kept) = cleaned := ⟨_, rfl⟩
    have still : Forgets cleaned all request.time := by
      intro client
      have before : kept client = all client ∨ kept client = none ∧ ∃ bucket,
          all client = some bucket ∧ bucket.lastRefill ≤ request.time - STALE_SECS := by
        rcases forgets client with same | ⟨gone, bucket, found, stale⟩
        · exact Or.inl same
        · exact Or.inr ⟨gone, bucket, found, by linarith⟩
      rw [← clean]
      split_ifs
      · unfold retain
        rcases before with same | ⟨gone, stale⟩
        · rw [same]
          cases found : all client with
          | none => exact Or.inl rfl
          | some bucket =>
            by_cases fresh : request.time - STALE_SECS < bucket.lastRefill
            · exact Or.inl (by simp [fresh])
            · exact Or.inr ⟨by simpa using not_lt.mp fresh, bucket, rfl, not_lt.mp fresh⟩
        · exact Or.inr ⟨by rw [gone]; rfl, stale⟩
      · exact before
    -- The client finds the same tokens on both sides.
    have alike : refill maxRps request.time ((cleaned request.client).getD ⟨maxRps, request.time⟩) =
        refill maxRps request.time ((all request.client).getD ⟨maxRps, request.time⟩) := by
      rcases still request.client with same | ⟨gone, bucket, found, stale⟩
      · rw [same]
      · rw [gone, found]
        exact (refill_stale stale (settled _ bucket found).2).symm
    have served : serve maxRps kept request = serve maxRps cleaned { request with cleans := false } := by
      unfold serve
      rw [if_neg active.ne', if_neg active.ne', clean]
      rfl
    rw [List.map_cons, decisions, decisions, served]
    have next := @Settled.serve _ maxRps _ _ { request with cleans := false } active rfl _ settled arrives
    rw [@ih _ _ request.time next ?_ ordered earliest]
    · congr 1
      unfold serve
      rw [if_neg active.ne', if_neg active.ne']
      simp only [Bool.false_eq_true, if_false, alike]
    · intro client
      unfold serve
      rw [if_neg active.ne', if_neg active.ne']
      simp only [Bool.false_eq_true, if_false, alike]
      by_cases own : client = request.client
      · subst own
        rw [Function.update_self, Function.update_self]
        exact Or.inl rfl
      · rw [Function.update_of_ne own, Function.update_of_ne own]
        exact still client

/-- Taking the clean-up away changes neither times nor clients, so neither what is admitted. -/
theorem admitted_whole {kept all : Buckets κ} {requests : List (Request κ)}
    (same : decisions maxRps kept requests =
      decisions maxRps all (requests.map fun request => { request with cleans := false }))
    (client : κ) (first last : ℚ) : admitted maxRps kept requests client first last =
      admitted maxRps all (requests.map fun request => { request with cleans := false })
        client first last := by
  unfold admitted
  rw [← same, List.zip_map_left, List.filter_map, List.length_map]
  rfl

/-- What a client is answered among other clients. -/
def answers (maxRps : Nat) (buckets : Buckets κ) (requests : List (Request κ)) (client : κ) :
    List Bool :=
  ((requests.zip (decisions maxRps buckets requests)).filter (·.1.client = client)).map Prod.snd

/-- Without the clean-up a client is answered as if it were alone. -/
theorem decisions_alone {one all : Buckets κ} {client : κ} {requests : List (Request κ)}
    (active : 0 < maxRps) (whole : ∀ request ∈ requests, request.cleans = false)
    (same : one client = all client) : decisions maxRps one (requests.filter (·.client = client)) =
      answers maxRps all requests client := by
  unfold answers
  induction requests generalizing one all with
  | nil => rfl
  | cons request rest ih =>
    obtain ⟨now, later⟩ := List.forall_mem_cons.mp whole
    by_cases own : request.client = client
    · subst own
      have answer : (serve maxRps one request).1 = (serve maxRps all request).1 := by
        rw [serve_fst active now, serve_fst active now, available, same, available]
      simp only [List.filter_cons, decide_true, if_true, decisions, List.zip_cons_cons,
        List.map_cons, answer]
      rw [ih later]
      simp [serve_snd active now, answer, available, same]
    · simp only [List.filter_cons, own, decide_false, decisions, List.zip_cons_cons]
      exact ih later (by rw [serve_snd active now, Function.update_of_ne (Ne.symm own), same])

/-- What a client is answered does not depend on the requests of the others. -/
theorem decisions_own {buckets : Buckets κ} {now : ℚ} (active : 0 < maxRps)
    (settled : Settled buckets now) {requests : List (Request κ)}
    (order : requests.Pairwise fun before after => before.time ≤ after.time)
    (after : ∀ request ∈ requests, now ≤ request.time) (client : κ) :
    decisions maxRps buckets (requests.filter (·.client = client)) =
      answers maxRps buckets requests client := by
  -- The clean-up decides nothing, for the client alone as for all.
  rw [answers, decisions_forgets active settled (fun _ => Or.inl rfl) order after,
    decisions_forgets active settled (fun _ => Or.inl rfl) (order.filter _)
      fun _ own => after _ (List.mem_filter.mp own).1]
  have alone := @decisions_alone _ maxRps _ buckets buckets client
    (requests.map fun request => { request with cleans := false }) active (by simp) rfl
  rw [List.filter_map, answers, List.zip_map_left, List.filter_map, List.map_map] at alone
  exact alone

/-- A client takes no token from another. -/
theorem decisions_own_two : decisions 1 (fun _ => none) [⟨0, false, true⟩] =
    answers 1 (fun _ => none) [⟨0, true, true⟩, ⟨0, false, true⟩] false :=
  @decisions_own Bool 1 _ (fun _ => none) 0 (by decide) (fun _ _ found => by cases found)
    [⟨0, true, true⟩, ⟨0, false, true⟩] (by simp) (by simp) false

end RateLimit

end Polargraph
