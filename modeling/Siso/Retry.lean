import Mathlib.Algebra.Order.Ring.Unbundled.Rat
import Mathlib.Data.Rat.Floor

/-!
# `reapi/retry`

`retry.Do` calls a function until it succeeds or fails in a way that is not worth retrying,
waiting between calls for the delay `ExponentialBackoff.Next` returns.  `Next` returns `0` to
stop, and `Do` stops on it.

A Go `error` is modelled by what `status.FromError` and `status.FromContextError` see of it.
The function `Do` retries is a sequence of results, one per call, and `rand.Float64` is a
sequence of values in `[0, 1)`, one per retry; the float arithmetic of `Next` is done exactly
over the rationals, and `time.Duration(x)` truncates towards zero.  The context is never
canceled.

`next_some_cases` says once what `Next` does with an error; from it, over any calls of `Next`
on one backoff, the backoff counts the retries it granted and keeps a non-negative delay, so
every delay it grants lies between `baseDelay` and `maxDelay`, and it stops exactly at a `nil`
error, at an error it does not retry, and after `maxRetries` retries.
-/

namespace Siso.Retry

namespace Codes

/-- `codes.Canceled`. -/
def canceled : Nat := 1
/-- `codes.Unknown`. -/
def unknown : Nat := 2
/-- `codes.DeadlineExceeded`. -/
def deadlineExceeded : Nat := 4
/-- `codes.PermissionDenied`. -/
def permissionDenied : Nat := 7
/-- `codes.ResourceExhausted`. -/
def resourceExhausted : Nat := 8
/-- `codes.Aborted`. -/
def aborted : Nat := 10
/-- `codes.Internal`. -/
def internal : Nat := 13
/-- `codes.Unavailable`. -/
def unavailable : Nat := 14
/-- `codes.Unauthenticated`. -/
def unauthenticated : Nat := 16

end Codes

/-- What a context error wraps: `context.DeadlineExceeded`, `context.Canceled`, or neither. -/
inductive Cause
  | deadlineExceeded
  | canceled
  | other
  deriving DecidableEq, Repr

/-- A Go `error`, as the retry code sees it. -/
inductive Error
  /-- An error with a gRPC status of the given code. -/
  | status (code : Nat)
  /-- An error without a gRPC status. -/
  | plain (cause : Cause)
  /-- `fmt.Errorf("too many retries %d %s: %w", ...)`. -/
  | tooManyRetries (retries : Nat) (err : Error)
  deriving DecidableEq, Repr

/-- `status.FromError(err)`, falling back to `status.FromContextError(err)`: the code, and
whether `err` carries a gRPC status. -/
def fromError : Error → Nat × Bool
  | .status code => (code, true)
  | .plain .deadlineExceeded => (Codes.deadlineExceeded, false)
  | .plain .canceled => (Codes.canceled, false)
  | .plain .other => (Codes.unknown, false)
  | .tooManyRetries _ err => fromError err

/-- `ExponentialBackoff`; `started` only feeds the text of an error and is left out. -/
structure ExponentialBackoff where
  retries : Nat
  /-- `delay`, in nanoseconds. -/
  delay : Int
  authRetry : Bool
  deriving DecidableEq, Repr

/-- The zero `ExponentialBackoff` that `Do` declares. -/
def ExponentialBackoff.zero : ExponentialBackoff := ⟨0, 0, false⟩

/-- `maxRetries`. -/
def maxRetries : Nat := 10

/-- `baseDelay`: 200 ms in nanoseconds. -/
def baseDelay : Int := 200000000

/-- `maxDelay`: 10 s in nanoseconds. -/
def maxDelay : ℚ := 10000000000

/-- `multiplier`. -/
def multiplier : ℚ := 2

/-- `backoffRange`. -/
def backoffRange : ℚ := 2 / 5

/-- `time.Duration(x)`: truncation towards zero. -/
def truncate (x : ℚ) : Int := if 0 ≤ x then x.floor else x.ceil

/-- `ExponentialBackoff.retriableError`: the retriable codes, `Unknown` only with a gRPC
status, and one authentication failure per backoff; it records that one in `authRetry`. -/
def retriableError (b : ExponentialBackoff) (err : Error) : Bool × ExponentialBackoff :=
  let st := fromError err
  if st.1 = Codes.resourceExhausted ∨ st.1 = Codes.internal ∨ st.1 = Codes.unavailable ∨
      st.1 = Codes.aborted then (true, b)
  else if st.1 = Codes.unknown then (st.2, b)
  else if st.1 = Codes.unauthenticated ∨ st.1 = Codes.permissionDenied then
    (!b.authRetry, { b with authRetry := true })
  else (false, b)

/-- Whether `retriableError` retries `err` on a backoff that has not used its authentication
retry. -/
def retriable (err : Error) : Bool := (retriableError .zero err).1

/-- Whether `err` is an authentication failure: `Unauthenticated` or `PermissionDenied`. -/
def authFailure (err : Error) : Bool :=
  (fromError err).1 = Codes.unauthenticated ∨ (fromError err).1 = Codes.permissionDenied

/-- `retriableError` retries a retriable error unless it is a second authentication failure,
and records an authentication failure. -/
theorem retriableError_eq (b : ExponentialBackoff) (err : Error) :
    retriableError b err =
      (retriable err && !(authFailure err && b.authRetry),
        { b with authRetry := b.authRetry || authFailure err }) := by
  simp only [retriable, retriableError, authFailure, ExponentialBackoff.zero]
  generalize fromError err = st
  obtain ⟨code, ok⟩ := st
  simp only [Codes.unknown, Codes.permissionDenied, Codes.resourceExhausted, Codes.aborted,
    Codes.internal, Codes.unavailable, Codes.unauthenticated]
  split_ifs with retriableCode
  · rcases retriableCode with rfl | rfl | rfl | rfl <;> simp
  all_goals simp_all

/-- `ExponentialBackoff.Next(ctx, err)` with `r` the value `rand.Float64` returns: the delay
(`0` to stop), the error, and the backoff after the call. -/
def next (b : ExponentialBackoff) (err : Option Error) (r : ℚ) :
    Int × Option Error × ExponentialBackoff :=
  match err with
  | none => (0, none, b)
  | some e =>
    let b := if b.delay = 0 then { b with delay := baseDelay } else b
    let retriable := retriableError b e
    let b := retriable.2
    if !retriable.1 then (0, some e, b)
    else if maxRetries ≤ b.retries then (0, some (.tooManyRetries b.retries e), b)
    else
      let backoff := min ((b.delay : ℚ) * multiplier) maxDelay
      let backoff := backoff - backoff * backoffRange * r
      let delay := max (truncate backoff) baseDelay
      (delay, some e, { b with retries := b.retries + 1, delay := delay })

/-- `Next` asks for a retry only after a retriable error, below `maxRetries`, and at most once
after an authentication failure; the retry is counted and the failure recorded. -/
theorem next_retry {b b' : ExponentialBackoff} {err err' : Option Error} {r : ℚ} {delay : Int}
    (h : next b err r = (delay, err', b')) (go : delay ≠ 0) :
    ∃ e, err = some e ∧ err' = some e ∧ retriable e ∧ b.retries < maxRetries ∧
      b'.retries = b.retries + 1 ∧ b'.authRetry = (b.authRetry || authFailure e) ∧
      (authFailure e → b.authRetry = false) := by
  cases err with
  | none => cases h; exact absurd rfl go
  | some e =>
    refine ⟨e, rfl, ?_⟩
    have auth : (if b.delay = 0 then { b with delay := baseDelay } else b).authRetry =
        b.authRetry := by split <;> rfl
    have retries : (if b.delay = 0 then { b with delay := baseDelay } else b).retries =
        b.retries := by split <;> rfl
    simp only [next, retriableError_eq] at h
    generalize (if b.delay = 0 then { b with delay := baseDelay } else b) = b₁ at h auth retries
    split_ifs at h with stop exhausted <;> cases h
    · exact absurd rfl go
    · exact absurd rfl go
    · simp only [Bool.not_eq_true', Bool.and_eq_false_iff, Bool.not_eq_false, Bool.and_eq_true,
        not_or, not_and] at stop
      rw [retries] at exhausted
      exact ⟨rfl, stop.1, Nat.lt_of_not_le exhausted, by simp [retries], by simp [auth],
        fun authE => by simpa [auth, authE] using stop.2⟩

/-- `Next` returns `nil` exactly for a `nil` error. -/
theorem next_err_eq_none (b : ExponentialBackoff) (err : Option Error) (r : ℚ) :
    (next b err r).2.1 = none ↔ err = none := by
  cases err with
  | none => simp [next]
  | some e => simp only [next]; split_ifs <;> simp

/-- `Next` stops at an error that is not retriable and returns it as it is. -/
theorem next_not_retriable (b : ExponentialBackoff) {e : Error} (r : ℚ)
    (notRetriable : retriable e = false) :
    next b (some e) r = (0, some e, (next b (some e) r).2.2) := by
  simp only [next, retriableError_eq, notRetriable, Bool.false_and, Bool.not_false, if_true]

/-- `time.Duration(x)` of a non-negative `x` is at most `x`. -/
theorem truncate_le {x : ℚ} (nonneg : 0 ≤ x) : (truncate x : ℚ) ≤ x := by
  rw [truncate, if_pos nonneg]
  exact Rat.le_floor.1 le_rfl

/-- The delay `Next` computes from a non-negative previous delay `d` is at most `maxDelay`. -/
theorem backoff_le_maxDelay {d r : ℚ} (d0 : 0 ≤ d) (r0 : 0 ≤ r) (r1 : r ≤ 1) :
    ((max (truncate (min (d * multiplier) maxDelay -
      min (d * multiplier) maxDelay * backoffRange * r)) baseDelay : Int) : ℚ) ≤ maxDelay := by
  have positive : 0 ≤ min (d * multiplier) maxDelay :=
    le_min (mul_nonneg d0 (by norm_num [multiplier])) (by norm_num [maxDelay])
  have capped : min (d * multiplier) maxDelay ≤ maxDelay := min_le_right _ _
  set m := min (d * multiplier) maxDelay
  have loss : 0 ≤ m * backoffRange * r :=
    mul_nonneg (mul_nonneg positive (by norm_num [backoffRange])) r0
  have kept : m * backoffRange * r ≤ m := by
    rw [mul_assoc]
    exact mul_le_of_le_one_right positive (mul_le_one₀ (by norm_num [backoffRange]) r0 r1)
  have jittered : 0 ≤ m - m * backoffRange * r ∧ m - m * backoffRange * r ≤ maxDelay :=
    ⟨by linarith, by linarith⟩
  rw [Int.cast_max]
  exact max_le ((truncate_le jittered.1).trans jittered.2) (by norm_num [baseDelay, maxDelay])

/-- The delay `Next` doubles: the backoff's, or `baseDelay` for a zero delay. -/
def ExponentialBackoff.prevDelay (b : ExponentialBackoff) : Int :=
  if b.delay = 0 then baseDelay else b.delay

theorem baseDelay_pos : 0 < baseDelay := by decide

theorem prevDelay_nonneg {b : ExponentialBackoff} (nonneg : 0 ≤ b.delay) : 0 ≤ b.prevDelay := by
  unfold ExponentialBackoff.prevDelay
  split
  · exact baseDelay_pos.le
  · exact nonneg

/-- What `Next` does with an error: it stops with `0`, granting no retry, or it grants one after
the jittered, capped double of the previous delay, at least `baseDelay`, and keeps that delay. -/
theorem next_some_cases (b : ExponentialBackoff) (e : Error) (r : ℚ) :
    ((retriableError b e).1 = false ∨ maxRetries ≤ b.retries) ∧ (next b (some e) r).1 = 0 ∧
      (next b (some e) r).2.2.retries = b.retries ∧
      (next b (some e) r).2.2.delay = b.prevDelay ∨
    (retriableError b e).1 = true ∧ b.retries < maxRetries ∧
      (next b (some e) r).1 = max (truncate (min (b.prevDelay * multiplier) maxDelay -
        min (b.prevDelay * multiplier) maxDelay * backoffRange * r)) baseDelay ∧
      (next b (some e) r).2.2.retries = b.retries + 1 ∧
      (next b (some e) r).2.2.delay = (next b (some e) r).1 := by
  have auth : (if b.delay = 0 then { b with delay := baseDelay } else b).authRetry =
      b.authRetry := by split <;> rfl
  have retries : (if b.delay = 0 then { b with delay := baseDelay } else b).retries =
      b.retries := by split <;> rfl
  have delay : (if b.delay = 0 then { b with delay := baseDelay } else b).delay =
      b.prevDelay := by unfold ExponentialBackoff.prevDelay; split <;> rfl
  simp only [next, retriableError_eq]
  generalize (if b.delay = 0 then { b with delay := baseDelay } else b) = b₁
    at auth retries delay ⊢
  rw [← auth, ← retries, ← delay]
  generalize (retriable e && !(authFailure e && b₁.authRetry)) = ok
  split_ifs with stop exhausted
  · exact .inl ⟨.inl (by simpa using stop), rfl, rfl, rfl⟩
  · exact .inl ⟨.inr exhausted, rfl, rfl, rfl⟩
  · exact .inr ⟨by simpa using stop, Nat.lt_of_not_le exhausted, rfl, rfl, rfl⟩

/-- `Next` returns `0` exactly for a `nil` error, for an error `retriableError` does not retry
on the backoff, and once `maxRetries` retries have been granted. -/
theorem next_eq_zero_iff (b : ExponentialBackoff) (err : Option Error) (r : ℚ) :
    (next b err r).1 = 0 ↔ err = none ∨
      ∃ e, err = some e ∧ ((retriableError b e).1 = false ∨ maxRetries ≤ b.retries) := by
  cases err with
  | none => simp [next]
  | some e =>
    rcases next_some_cases b e r with ⟨stop, zero, -⟩ | ⟨go, under, delay, -⟩
    · simp [zero, stop]
    · have := baseDelay_pos
      have ne : (next b (some e) r).1 ≠ 0 := by rw [delay]; omega
      simp [ne, go, Nat.not_le.2 under]

/-- A delay `Next` grants is at least `baseDelay`. -/
theorem baseDelay_le_next {b : ExponentialBackoff} {err : Option Error} {r : ℚ}
    (go : (next b err r).1 ≠ 0) : baseDelay ≤ (next b err r).1 := by
  cases err with
  | none => exact absurd rfl go
  | some e =>
    rcases next_some_cases b e r with ⟨-, zero, -⟩ | ⟨-, -, delay, -⟩
    · exact absurd zero go
    · rw [delay]; exact le_max_right _ _

/-- From a non-negative delay and for `r ∈ [0, 1]`, the delay `Next` returns is at most
`maxDelay`. -/
theorem next_le_maxDelay {b : ExponentialBackoff} (nonneg : 0 ≤ b.delay) (err : Option Error)
    {r : ℚ} (r0 : 0 ≤ r) (r1 : r ≤ 1) : ((next b err r).1 : ℚ) ≤ maxDelay := by
  have : (0 : ℚ) ≤ maxDelay := by simp only [maxDelay]; norm_num
  cases err with
  | none => simpa [next]
  | some e =>
    rcases next_some_cases b e r with ⟨-, zero, -⟩ | ⟨-, -, delay, -⟩
    · simpa [zero]
    · rw [delay]
      exact backoff_le_maxDelay (Int.cast_nonneg.2 (prevDelay_nonneg nonneg)) r0 r1

/-- `Next` returns `0`, or a delay between `baseDelay` and `maxDelay` that it also keeps as the
backoff's delay, for every value of `rand.Float64` in `[0, 1]`. -/
theorem next_delay_bounds {b : ExponentialBackoff} {err : Option Error} {r : ℚ}
    (nonneg : 0 ≤ b.delay) (r0 : 0 ≤ r) (r1 : r ≤ 1) :
    (next b err r).1 = 0 ∨
      (baseDelay ≤ (next b err r).1 ∧ ((next b err r).1 : ℚ) ≤ maxDelay ∧
      (next b err r).2.2.delay = (next b err r).1) := by
  cases err with
  | none => exact .inl rfl
  | some e =>
    rcases next_some_cases b e r with ⟨-, zero, -⟩ | ⟨-, -, delay, -, kept⟩
    · exact .inl zero
    · exact .inr ⟨delay ▸ le_max_right _ _, next_le_maxDelay nonneg _ r0 r1, kept⟩

theorem next_delay_bounds_unavailable :
    (0 ≤ ExponentialBackoff.zero.delay ∧ (0 : ℚ) ≤ 1 / 2 ∧ (1 / 2 : ℚ) ≤ 1) ∧
      ((next .zero (some (.status Codes.unavailable)) (1 / 2)).1 = 0 ∨
        (baseDelay ≤ (next .zero (some (.status Codes.unavailable)) (1 / 2)).1 ∧
          ((next .zero (some (.status Codes.unavailable)) (1 / 2)).1 : ℚ) ≤ maxDelay ∧
          (next .zero (some (.status Codes.unavailable)) (1 / 2)).2.2.delay =
            (next .zero (some (.status Codes.unavailable)) (1 / 2)).1)) :=
  ⟨⟨le_rfl, by norm_num, by norm_num⟩, next_delay_bounds le_rfl (by norm_num) (by norm_num)⟩

/-- From a non-negative delay, `Next` leaves a non-negative delay. -/
theorem next_delay_nonneg {b : ExponentialBackoff} (nonneg : 0 ≤ b.delay) (err : Option Error)
    (r : ℚ) : 0 ≤ (next b err r).2.2.delay := by
  cases err with
  | none => exact nonneg
  | some e =>
    rcases next_some_cases b e r with ⟨-, -, -, delay⟩ | ⟨-, -, value, -, delay⟩
    · exact delay ▸ prevDelay_nonneg nonneg
    · rw [delay, value]
      exact baseDelay_pos.le.trans (le_max_right _ _)

/-- The backoff after `Next` was called on it with each error and `rand.Float64` value of `calls`
in turn. -/
def afterCalls : ExponentialBackoff → List (Option Error × ℚ) → ExponentialBackoff
  | b, [] => b
  | b, call :: calls => afterCalls (next b call.1 call.2).2.2 calls

/-- The delays `Next` returned for those calls. -/
def delays : ExponentialBackoff → List (Option Error × ℚ) → List Int
  | _, [] => []
  | b, call :: calls => (next b call.1 call.2).1 :: delays (next b call.1 call.2).2.2 calls

/-- The backoff counts the calls that were granted a retry. -/
theorem afterCalls_retries (b : ExponentialBackoff) (calls : List (Option Error × ℚ)) :
    (afterCalls b calls).retries = b.retries + (delays b calls).countP fun d => d ≠ 0 := by
  induction calls generalizing b with
  | nil => rfl
  | cons call calls ih =>
    rw [afterCalls, delays, List.countP_cons, ih]
    obtain ⟨err, r⟩ := call
    cases err with
    | none => simp [next]
    | some e =>
      rcases next_some_cases b e r with ⟨-, zero, retries, -⟩ | ⟨-, -, delay, retries, -⟩
      · simp [zero, retries]
      · have := baseDelay_pos
        have ne : (next b (some e) r).1 ≠ 0 := by rw [delay]; omega
        simp only [retries, ne, ne_eq, not_false_eq_true, decide_True, if_true]
        omega

/-- The delay stays non-negative. -/
theorem afterCalls_delay_nonneg {b : ExponentialBackoff} (nonneg : 0 ≤ b.delay)
    (calls : List (Option Error × ℚ)) : 0 ≤ (afterCalls b calls).delay := by
  induction calls generalizing b with
  | nil => exact nonneg
  | cons call calls ih => exact ih (next_delay_nonneg nonneg call.1 call.2)

/-- After any calls `pre` of `Next` on one backoff, with any errors and any values of
`rand.Float64`, the next call, with `r ∈ [0, 1]`, returns `0` exactly for a `nil` error, for an
error that `retriableError` does not retry (one of another code, or a second authentication
failure), and once `maxRetries` of the earlier calls were granted a retry; every other delay it
returns lies between `baseDelay` and `maxDelay`. -/
theorem next_after_calls (pre : List (Option Error × ℚ)) (err : Option Error) {r : ℚ}
    (r0 : 0 ≤ r) (r1 : r ≤ 1) :
    ((next (afterCalls .zero pre) err r).1 = 0 ↔ err = none ∨ ∃ e, err = some e ∧
      ((retriableError (afterCalls .zero pre) e).1 = false ∨
        maxRetries ≤ (delays .zero pre).countP fun d => d ≠ 0)) ∧
    ((next (afterCalls .zero pre) err r).1 ≠ 0 →
      baseDelay ≤ (next (afterCalls .zero pre) err r).1 ∧
        ((next (afterCalls .zero pre) err r).1 : ℚ) ≤ maxDelay) := by
  have retries : (afterCalls .zero pre).retries = (delays .zero pre).countP fun d => d ≠ 0 :=
    (afterCalls_retries .zero pre).trans (Nat.zero_add _)
  refine ⟨by rw [next_eq_zero_iff, retries], fun go => ⟨baseDelay_le_next go, ?_⟩⟩
  exact next_le_maxDelay (afterCalls_delay_nonneg le_rfl pre) err r0 r1

theorem next_after_calls_unavailable :
    (0 ≤ (1 / 2 : ℚ) ∧ (1 / 2 : ℚ) ≤ 1) ∧
    ((next (afterCalls .zero [(some (.status Codes.unavailable), 0)])
        (some (.status Codes.unavailable)) (1 / 2)).1 = 0 ↔
      some (Error.status Codes.unavailable) = none ∨
      ∃ e, some (Error.status Codes.unavailable) = some e ∧
        ((retriableError (afterCalls .zero [(some (.status Codes.unavailable), 0)]) e).1 = false ∨
          maxRetries ≤ (delays .zero [(some (.status Codes.unavailable), 0)]).countP
            fun d => d ≠ 0)) ∧
    ((next (afterCalls .zero [(some (.status Codes.unavailable), 0)])
        (some (.status Codes.unavailable)) (1 / 2)).1 ≠ 0 →
      baseDelay ≤ (next (afterCalls .zero [(some (.status Codes.unavailable), 0)])
        (some (.status Codes.unavailable)) (1 / 2)).1 ∧
      ((next (afterCalls .zero [(some (.status Codes.unavailable), 0)])
        (some (.status Codes.unavailable)) (1 / 2)).1 : ℚ) ≤ maxDelay) :=
  ⟨⟨by norm_num, by norm_num⟩, next_after_calls _ _ (by norm_num) (by norm_num)⟩

/-- The loop of `Do(ctx, f)` from backoff `b`, `calls` calls made so far: `f calls` is the
result of the next call, `rand b.retries` the value of `rand.Float64` for the next retry.
It returns the number of calls made and the error `Do` returns. -/
def doFrom (f : Nat → Option Error) (rand : Nat → ℚ) (b : ExponentialBackoff) (calls : Nat) :
    Nat × Option Error :=
  match h : next b (f calls) (rand b.retries) with
  | (delay, err, b') =>
    if stop : delay = 0 then (calls + 1, err)
    else doFrom f rand b' (calls + 1)
termination_by maxRetries + 1 - b.retries
decreasing_by
  simp_wf
  obtain ⟨-, -, -, -, lt, succ, -⟩ := next_retry h stop
  omega

/-- `retry.Do(ctx, f)` with a context that is never canceled. -/
def «do» (f : Nat → Option Error) (rand : Nat → ℚ) : Nat × Option Error :=
  doFrom f rand .zero 0

section Loop

variable {f : Nat → Option Error} {rand : Nat → ℚ} {b b' : ExponentialBackoff} {calls : Nat}
  {delay : Int} {err : Option Error}

theorem doFrom_stop (h : next b (f calls) (rand b.retries) = (0, err, b')) :
    doFrom f rand b calls = (calls + 1, err) := by
  rw [doFrom, h]; rfl

theorem doFrom_retry (h : next b (f calls) (rand b.retries) = (delay, err, b')) (go : delay ≠ 0) :
    doFrom f rand b calls = doFrom f rand b' (calls + 1) := by
  rw [doFrom, h]; exact dif_neg go

/-- The loop makes at least one call, and at most one more than the retries left. -/
theorem doFrom_calls (f : Nat → Option Error) (rand : Nat → ℚ) (b : ExponentialBackoff)
    (calls : Nat) :
    calls < (doFrom f rand b calls).1 ∧
      (doFrom f rand b calls).1 ≤ calls + 1 + (maxRetries - b.retries) := by
  induction b, calls using doFrom.induct f rand with
  | case1 b calls err b' h => rw [doFrom_stop h]; omega
  | case2 b calls delay err b' h go ih =>
    obtain ⟨-, -, -, -, lt, succ, -⟩ := next_retry h go
    rw [doFrom_retry h go]; omega

/-- Every call the loop follows by another returned a retriable error. -/
theorem doFrom_retried (f : Nat → Option Error) (rand : Nat → ℚ) (b : ExponentialBackoff)
    (calls : Nat) :
    ∀ i, calls ≤ i → i + 1 < (doFrom f rand b calls).1 →
      ∃ e, f i = some e ∧ retriable e := by
  induction b, calls using doFrom.induct f rand with
  | case1 b calls err b' h => rw [doFrom_stop h]; omega
  | case2 b calls delay err b' h go ih =>
    rw [doFrom_retry h go]
    intro i first more
    rcases Nat.eq_or_lt_of_le first with rfl | later
    · obtain ⟨e, called, -, retriableE, -⟩ := next_retry h go
      exact ⟨e, called, retriableE⟩
    · exact ih i later more

/-- The loop returns what `Next` returns for the last call. -/
theorem doFrom_last (f : Nat → Option Error) (rand : Nat → ℚ) (b : ExponentialBackoff)
    (calls : Nat) :
    ∃ b' r, (doFrom f rand b calls).2 = (next b' (f ((doFrom f rand b calls).1 - 1)) r).2.1 := by
  induction b, calls using doFrom.induct f rand with
  | case1 b calls err b' h => exact ⟨b, rand b.retries, by simp [doFrom_stop h, h]⟩
  | case2 b calls delay err b' h go ih => rwa [doFrom_retry h go]

/-- Of the calls the loop follows by another, at most one returned an authentication
failure, and none did if the backoff has used its authentication retry. -/
theorem doFrom_auth_once (f : Nat → Option Error) (rand : Nat → ℚ) (b : ExponentialBackoff)
    (calls : Nat) :
    ∀ i, calls ≤ i → i + 1 < (doFrom f rand b calls).1 → (f i).any authFailure →
      b.authRetry = false ∧ ∀ j, calls ≤ j → j + 1 < (doFrom f rand b calls).1 →
        (f j).any authFailure → i = j := by
  induction b, calls using doFrom.induct f rand with
  | case1 b calls err b' h => rw [doFrom_stop h]; omega
  | case2 b calls delay err b' h go ih =>
    obtain ⟨e, called, -, -, -, -, recorded, once⟩ := next_retry h go
    rw [doFrom_retry h go]
    intro i first more auth
    rcases Nat.eq_or_lt_of_le first with rfl | later
    · rw [called, Option.any_some] at auth
      refine ⟨once auth, fun j first' more' auth' => ?_⟩
      rcases Nat.eq_or_lt_of_le first' with rfl | later'
      · rfl
      · simpa [recorded, auth] using (ih j later' more' auth').1
    · obtain ⟨unused, unique⟩ := ih i later more auth
      rw [recorded, Bool.or_eq_false_iff] at unused
      refine ⟨unused.1, fun j first' more' auth' => ?_⟩
      rcases Nat.eq_or_lt_of_le first' with rfl | later'
      · simp [called, unused.2] at auth'
      · exact unique j later' more' auth'

/-- A call that returned a retriable error is followed by another while the backoff has
retries left, unless it is an authentication failure after the backoff used its
authentication retry. -/
theorem doFrom_continues (f : Nat → Option Error) (rand : Nat → ℚ) (b : ExponentialBackoff)
    (calls : Nat) :
    ∀ i e, calls ≤ i → i < (doFrom f rand b calls).1 → f i = some e → retriable e →
      b.retries + (i - calls) < maxRetries →
      (authFailure e → b.authRetry = false ∧
        ∀ j, calls ≤ j → j < i → (f j).any authFailure = false) →
      i + 1 < (doFrom f rand b calls).1 := by
  induction b, calls using doFrom.induct f rand with
  | case1 b calls err b' h =>
    rw [doFrom_stop h]
    intro i e first last ranE retriableE budget auth
    obtain rfl : i = calls := by omega
    have stopped := (next_eq_zero_iff b (f i) (rand b.retries)).1 (by rw [h])
    simp only [ranE, retriableError_eq, retriableE, Bool.true_and, Bool.not_eq_false',
      Bool.and_eq_true, reduceCtorEq, Option.some.injEq, exists_eq_left', false_or] at stopped
    rcases stopped with ⟨authE, used⟩ | exhausted
    · simp [(auth authE).1] at used
    · omega
  | case2 b calls delay err b' h go ih =>
    obtain ⟨e₀, called, -, -, -, succ, recorded, -⟩ := next_retry h go
    rw [doFrom_retry h go]
    intro i e first last ranE retriableE budget auth
    rcases Nat.eq_or_lt_of_le first with rfl | later
    · exact (doFrom_calls f rand b' (calls + 1)).1
    refine ih i e later last ranE retriableE (by omega) fun authE => ?_
    obtain ⟨unused, before⟩ := auth authE
    have first : (f calls).any authFailure = false := before calls le_rfl later
    rw [called, Option.any_some] at first
    exact ⟨by simp [recorded, unused, first], fun j first' => before j (by omega)⟩

end Loop

/-- What `Do` guarantees of a run that called `f` `n` times and returned `res`. -/
structure DoContract (f : Nat → Option Error) (n : Nat) (res : Option Error) : Prop where
  /-- `f` is called at least once, -/
  called : 1 ≤ n
  /-- and at most `maxRetries + 1` times. -/
  bounded : n ≤ maxRetries + 1
  /-- A call is followed by another only after a retriable error. -/
  retried_after_retriable : ∀ i, i + 1 < n → ∃ e, f i = some e ∧ retriable e
  /-- `Do` returns `nil` exactly when the last call did. -/
  nil_iff_last_nil : res = none ↔ f (n - 1) = none
  /-- At most one authentication failure is followed by another call. -/
  auth_retried_once : ∀ i j, i + 1 < n → j + 1 < n → (f i).any authFailure →
    (f j).any authFailure → i = j
  /-- A retriable error is followed by another call while fewer than `maxRetries` retries were
  made, unless it is a second authentication failure. -/
  retries_retriable : ∀ i e, i < n → f i = some e → retriable e → i < maxRetries →
    (authFailure e → ∀ j < i, (f j).any authFailure = false) → i + 1 < n
  /-- An error that is not retriable ends the run and is returned as it is. -/
  stops_at_not_retriable : ∀ i e, i < n → f i = some e → retriable e = false →
    n = i + 1 ∧ res = some e

/-- `retry.Do` keeps its contract for every sequence of results of `f`. -/
theorem do_contract (f : Nat → Option Error) (rand : Nat → ℚ) :
    DoContract f («do» f rand).1 («do» f rand).2 := by
  unfold «do»
  have calls := doFrom_calls f rand .zero 0
  have retried := doFrom_retried f rand .zero 0
  obtain ⟨b, r, last⟩ := doFrom_last f rand .zero 0
  refine ⟨calls.1, calls.2, fun i => retried i (Nat.zero_le i), ?_, ?_, ?_, ?_⟩
  · rw [last, next_err_eq_none]
  · intro i j more more' auth
    exact (doFrom_auth_once f rand .zero 0 i (Nat.zero_le i) more auth).2 j (Nat.zero_le j) more'
  · intro i e ran ranE retriableE budget auth
    exact doFrom_continues f rand .zero 0 i e (Nat.zero_le i) ran ranE retriableE
      (by simpa [ExponentialBackoff.zero] using budget) fun authE => ⟨rfl, fun j _ => auth authE j⟩
  · intro i e called ranE notRetriable
    have ends : (doFrom f rand .zero 0).1 = i + 1 := by
      by_contra more
      obtain ⟨e', ranE', retriable'⟩ := retried i (Nat.zero_le i) (by omega)
      simp_all
    refine ⟨ends, ?_⟩
    rw [last, ends, Nat.add_sub_cancel, ranE, next_not_retriable b r notRetriable]

end Siso.Retry
