import Mathlib.Logic.Function.Basic
import Siso.Heap

/-!
# The priority semaphore

`semaphore.Prioritized` hands out `capacity` slots.  A caller of `WaitAcquire` takes a free
slot at once, numbered `tid := used`; otherwise it pushes a `request` on the heap `pq` and
blocks in a `select` on its `ready` channel and on its context.  The `done` function a holder
gets back runs `privateRelease(tid)`, which pops requests off the heap until one is still
waiting and hands it the slot by sending `tid` on its channel, or else gives the slot back
with `used--`.  Cancellation races with the hand-off through the compare-and-swap on
`request.state`.

The model is a transition system.  Every call of `WaitAcquire` is a caller, numbered in the
order in which the calls take the mutex, so that this number is also the order in which their
requests are enqueued.  A caller's `Phase` says where it stands in `WaitAcquire` and then in
its `done`.  One `Event` is one atomic step of one caller: a section under `mu`, one round of
the loop of `privateRelease` (which holds `mu` from its first round to its return), a
compare-and-swap, or the meeting of a send and a receive on an unbuffered channel.  The round
of the loop is atomic because the only step that can run in the middle of it is a canceler's
compare-and-swap, which touches neither `pq` nor `used`.

`request.index` is not kept as a field: `priorityQueue.Swap`, `Push` and `Pop` keep it equal
to the request's position in `pq`, and the model computes that position.
-/

namespace Siso.Semaphore

open Function

/-- `stateWaiting`, `stateAcquired` and `stateCanceled` of `request.state`. -/
inductive ReqState
  | waiting
  | acquired
  | canceled
  deriving DecidableEq, Repr

/-- Where a call of `WaitAcquire`, and then of the `done` it returned, stands. -/
inductive Phase
  /-- Not called yet. -/
  | idle
  /-- Its request is pushed and it blocks in the `select`. -/
  | queued
  /-- It won the compare-and-swap to `stateCanceled` and is about to remove its request. -/
  | canceling
  /-- It lost the compare-and-swap to a release and blocks on `<-req.ready`. -/
  | draining
  /-- `WaitAcquire` returned slot `tid` and `done` has not been called. -/
  | holding (tid : Int)
  /-- `done` runs `privateRelease(tid)`, holding `mu`. -/
  | releasing (tid : Int)
  /-- `WaitAcquire` returned the context's error. -/
  | failed
  /-- `done` has returned. -/
  | released
  deriving DecidableEq, Repr

/-- The phases in which a caller owns a slot: it holds one, or its `done` has not yet given it
back or handed it on. -/
def Phase.ownsSlot : Phase → Bool
  | .holding _ | .releasing _ => true
  | _ => false

@[simp] theorem Phase.ownsSlot_holding (tid : Int) : (Phase.holding tid).ownsSlot = true := rfl

@[simp] theorem Phase.ownsSlot_releasing (tid : Int) : (Phase.releasing tid).ownsSlot = true := rfl

@[simp] theorem Phase.ownsSlot_queued : Phase.queued.ownsSlot = false := rfl

@[simp] theorem Phase.ownsSlot_canceling : Phase.canceling.ownsSlot = false := rfl

@[simp] theorem Phase.ownsSlot_draining : Phase.draining.ownsSlot = false := rfl

@[simp] theorem Phase.ownsSlot_failed : Phase.failed.ownsSlot = false := rfl

@[simp] theorem Phase.ownsSlot_released : Phase.released.ownsSlot = false := rfl

/-- A send `req.ready <- tid` of `privateRelease` waiting for its receiver. -/
structure Handoff where
  releaser : Nat
  req : Nat
  tid : Int
  deriving DecidableEq, Repr

/-- The state of a `Prioritized` and of its callers. -/
structure Prioritized where
  capacity : Int
  used : Int
  pq : Slice Nat
  /-- The `weight` argument of each caller. -/
  weight : Nat → Int
  /-- `request.state` of each caller that pushed a request. -/
  state : Nat → Option ReqState
  phase : Nat → Phase
  /-- How many calls of `WaitAcquire` have taken `mu` so far. -/
  callers : Nat
  /-- `mu` as held across `privateRelease`; the other sections under `mu` are single steps. -/
  mu : Bool
  ready : Option Handoff

/-- `NewPrioritized(name, n)`. -/
def newPrioritized (n : Int) : Prioritized where
  capacity := n
  used := 0
  pq := ⟨fun _ => 0, 0⟩
  weight := fun _ => 0
  state := fun _ => none
  phase := fun _ => .idle
  callers := 0
  mu := false
  ready := none

/-- `priorityQueue.Less` on the requests of `s`: the higher weight comes first. -/
def Prioritized.less (s : Prioritized) : Nat → Nat → Bool := Heap.byKey s.weight

/-- The section of `WaitAcquire(ctx, w)` under `mu`, for the next caller: take a free slot as
`tid := used`, or push a waiting request. -/
def waitAcquire (s : Prioritized) (w : Int) : Option Prioritized :=
  if s.mu then none
  else if s.used < s.capacity then
    some { s with
      used := s.used + 1
      weight := update s.weight s.callers w
      phase := update s.phase s.callers (.holding s.used)
      callers := s.callers + 1 }
  else
    some { s with
      pq := Heap.push (Heap.byKey (update s.weight s.callers w)) s.pq s.callers
      weight := update s.weight s.callers w
      state := update s.state s.callers (some .waiting)
      phase := update s.phase s.callers .queued
      callers := s.callers + 1 }

/-- What the section of `WaitAcquire` can do: with `mu` free, take slot `used` when one is free,
and else push a waiting request. -/
theorem waitAcquire_eq_some {s s' : Prioritized} {w : Int} (h : waitAcquire s w = some s') :
    s.mu = false ∧
      (s.used < s.capacity ∧ s' = { s with
          used := s.used + 1
          weight := update s.weight s.callers w
          phase := update s.phase s.callers (.holding s.used)
          callers := s.callers + 1 } ∨
        ¬s.used < s.capacity ∧ s' = { s with
          pq := Heap.push (Heap.byKey (update s.weight s.callers w)) s.pq s.callers
          weight := update s.weight s.callers w
          state := update s.state s.callers (some .waiting)
          phase := update s.phase s.callers .queued
          callers := s.callers + 1 }) := by
  unfold waitAcquire at h
  split at h
  · cases h
  rename_i locked
  split at h <;> cases h
  · exact ⟨by simpa using locked, .inl ⟨‹_›, rfl⟩⟩
  · exact ⟨by simpa using locked, .inr ⟨‹_›, rfl⟩⟩

/-- `tid := <-req.ready` in caller `t`, in the `select` or after a lost race, meeting the send
of `privateRelease`, which then returns and unlocks `mu`. -/
def receive (s : Prioritized) (t : Nat) : Option Prioritized :=
  match s.ready with
  | some ho =>
    if ho.req = t ∧ (s.phase t = .queued ∨ s.phase t = .draining) then
      some { s with
        phase := update (update s.phase ho.releaser .released) t (.holding ho.tid)
        mu := false
        ready := none }
    else none
  | none => none

/-- What a receive can do: meet the hand-off in flight to a caller in the `select` or after a lost
race. -/
theorem receive_eq_some {s s' : Prioritized} {t : Nat} (h : receive s t = some s') :
    ∃ ho, s.ready = some ho ∧ ho.req = t ∧ (s.phase t = .queued ∨ s.phase t = .draining) ∧
      s' = { s with
        phase := update (update s.phase ho.releaser .released) t (.holding ho.tid)
        mu := false
        ready := none } := by
  unfold receive at h
  split at h
  · split at h
    · cases h; exact ⟨_, ‹_›, ‹_ ∧ _›.1, ‹_ ∧ _›.2, rfl⟩
    · cases h
  · cases h

/-- `<-ctx.Done()` in the `select` of caller `t`: `req.state.CompareAndSwap(stateWaiting,
stateCanceled)`, which fails when a release has already taken the request. -/
def cancel (s : Prioritized) (t : Nat) : Option Prioritized :=
  if s.phase t = .queued then
    if s.state t = some .waiting then
      some { s with
        state := update s.state t (some .canceled)
        phase := update s.phase t .canceling }
    else some { s with phase := update s.phase t .draining }
  else none

/-- What a cancellation can do: win the race and cancel a waiting request, or lose it. -/
theorem cancel_eq_some {s s' : Prioritized} {t : Nat} (h : cancel s t = some s') :
    s.phase t = .queued ∧
      (s.state t = some .waiting ∧ s' = { s with
          state := update s.state t (some .canceled)
          phase := update s.phase t .canceling } ∨
        s.state t ≠ some .waiting ∧ s' = { s with phase := update s.phase t .draining }) := by
  unfold cancel at h
  split at h
  · split at h <;> cases h
    · exact ⟨‹_›, .inl ⟨‹_›, rfl⟩⟩
    · exact ⟨‹_›, .inr ⟨‹_›, rfl⟩⟩
  · cases h

/-- After a won compare-and-swap, caller `t` takes `mu`, removes its request from `pq` if a
release has not popped it already (`req.index != -1`), and returns its error. -/
def removeCanceled (s : Prioritized) (t : Nat) : Option Prioritized :=
  if s.mu = false ∧ s.phase t = .canceling then
    some { s with
      pq := if t ∈ s.pq.toList then (Heap.remove s.less s.pq (s.pq.toList.indexOf t)).2 else s.pq
      phase := update s.phase t .failed }
  else none

/-- What the removal of a canceled request can do, with `mu` free. -/
theorem removeCanceled_eq_some {s s' : Prioritized} {t : Nat} (h : removeCanceled s t = some s') :
    s.mu = false ∧ s.phase t = .canceling ∧ s' = { s with
      pq := if t ∈ s.pq.toList then (Heap.remove (Heap.byKey s.weight) s.pq
        (s.pq.toList.indexOf t)).2 else s.pq
      phase := update s.phase t .failed } := by
  unfold removeCanceled at h
  split at h
  · cases h; exact ⟨‹_ ∧ _›.1, ‹_ ∧ _›.2, rfl⟩
  · cases h

/-- The `done` of holder `t` enters `privateRelease(tid)` and takes `mu`. -/
def done (s : Prioritized) (t : Nat) : Option Prioritized :=
  match s.phase t with
  | .holding tid =>
    if s.mu then none else some { s with mu := true, phase := update s.phase t (.releasing tid) }
  | _ => none

/-- What entering `privateRelease` can do: a holder takes `mu`. -/
theorem done_eq_some {s s' : Prioritized} {t : Nat} (h : done s t = some s') :
    ∃ tid, s.phase t = .holding tid ∧ s.mu = false ∧
      s' = { s with mu := true, phase := update s.phase t (.releasing tid) } := by
  unfold done at h
  split at h
  · split at h
    · cases h
    · rename_i holding locked
      cases h; exact ⟨_, holding, by simpa using locked, rfl⟩
  · cases h

/-- One round of the loop of `privateRelease(tid)` in caller `t`.  With `pq` empty, `used--`,
unlock and return.  Otherwise pop the top request; if its compare-and-swap to
`stateAcquired` succeeds, start the send of `tid` to it, and else go round again. -/
def privateRelease (s : Prioritized) (t : Nat) : Option Prioritized :=
  match s.phase t with
  | .releasing tid =>
    if s.ready.isSome then none
    else if s.pq.len = 0 then
      some { s with used := s.used - 1, mu := false, phase := update s.phase t .released }
    else
      let top := Heap.pop s.less s.pq
      if s.state top.1 = some .waiting then
        some { s with
          pq := top.2
          state := update s.state top.1 (some .acquired)
          ready := some ⟨t, top.1, tid⟩ }
      else some { s with pq := top.2 }
  | _ => none

/-- What a round of `privateRelease` can do, with no hand-off in flight: give the slot back when
`pq` is empty, and else pop the top request and hand it the slot if it still waits, or drop it. -/
theorem privateRelease_eq_some {s s' : Prioritized} {t : Nat} (h : privateRelease s t = some s') :
    ∃ tid, s.phase t = .releasing tid ∧ s.ready = none ∧
      (s.pq.len = 0 ∧
          s' = { s with used := s.used - 1, mu := false, phase := update s.phase t .released } ∨
        0 < s.pq.len ∧ s.state (Heap.pop (Heap.byKey s.weight) s.pq).1 = some .waiting ∧
          s' = { s with
            pq := (Heap.pop (Heap.byKey s.weight) s.pq).2
            state := update s.state (Heap.pop (Heap.byKey s.weight) s.pq).1 (some .acquired)
            ready := some ⟨t, (Heap.pop (Heap.byKey s.weight) s.pq).1, tid⟩ } ∨
        0 < s.pq.len ∧ s.state (Heap.pop (Heap.byKey s.weight) s.pq).1 ≠ some .waiting ∧
          s' = { s with pq := (Heap.pop (Heap.byKey s.weight) s.pq).2 }) := by
  unfold privateRelease at h
  split at h
  · rename_i tid releasing
    split at h
    · cases h
    rename_i inFlight
    have noReady : s.ready = none := by simpa using inFlight
    split at h
    · cases h; exact ⟨tid, releasing, noReady, .inl ⟨‹_›, rfl⟩⟩
    · dsimp only at h
      split at h <;> cases h
      · exact ⟨tid, releasing, noReady, .inr (.inl ⟨by omega, ‹_›, rfl⟩)⟩
      · exact ⟨tid, releasing, noReady, .inr (.inr ⟨by omega, ‹_›, rfl⟩)⟩
  · cases h

/-- One atomic step of one caller. -/
inductive Event
  | waitAcquire (weight : Int)
  | receive (caller : Nat)
  | cancel (caller : Nat)
  | remove (caller : Nat)
  | done (caller : Nat)
  | release (caller : Nat)
  deriving DecidableEq, Repr

/-- The effect of an event, `none` when it cannot happen in `s`. -/
def step (s : Prioritized) : Event → Option Prioritized
  | .waitAcquire w => waitAcquire s w
  | .receive t => receive s t
  | .cancel t => cancel s t
  | .remove t => removeCanceled s t
  | .done t => done s t
  | .release t => privateRelease s t

/-- No step changes the capacity. -/
theorem step_capacity {s s' : Prioritized} {e : Event} (h : step s e = some s') :
    s'.capacity = s.capacity := by
  cases e with
  | waitAcquire w => obtain ⟨-, ⟨-, rfl⟩ | ⟨-, rfl⟩⟩ := waitAcquire_eq_some h <;> rfl
  | receive t => obtain ⟨-, -, -, -, rfl⟩ := receive_eq_some h; rfl
  | cancel t => obtain ⟨-, ⟨-, rfl⟩ | ⟨-, rfl⟩⟩ := cancel_eq_some h <;> rfl
  | remove t => obtain ⟨-, -, rfl⟩ := removeCanceled_eq_some h; rfl
  | done t => obtain ⟨-, -, -, rfl⟩ := done_eq_some h; rfl
  | release t =>
    obtain ⟨tid, -, -, ⟨-, rfl⟩ | ⟨-, -, rfl⟩ | ⟨-, -, rfl⟩⟩ := privateRelease_eq_some h <;> rfl

/-- Run a sequence of events, as long as each can happen. -/
def run (s : Prioritized) : List Event → Option Prioritized
  | [] => some s
  | e :: es => (step s e).bind fun s' => run s' es

/-- The states some interleaving reaches from `NewPrioritized(name, n)`. -/
def Reachable (n : Int) (s : Prioritized) : Prop := ∃ es, run (newPrioritized n) es = some s

/-- The callers that own a slot. -/
def holders (s : Prioritized) : Nat := (List.range s.callers).countP fun t => (s.phase t).ownsSlot

/-- A request that is still `stateWaiting`. -/
def Waiting (s : Prioritized) (r : Nat) : Prop := s.state r = some .waiting

theorem run_append (s : Prioritized) (es fs : List Event) :
    run s (es ++ fs) = (run s es).bind fun s' => run s' fs := by
  induction es generalizing s with
  | nil => rfl
  | cons e es ih =>
    simp only [List.cons_append, run]
    cases step s e <;> simp [ih]

theorem Reachable.init (n : Int) : Reachable n (newPrioritized n) := ⟨[], rfl⟩

theorem Reachable.step {n : Int} {s s' : Prioritized} {e : Event} (reach : Reachable n s)
    (h : Semaphore.step s e = some s') : Reachable n s' := by
  obtain ⟨es, hes⟩ := reach
  exact ⟨es ++ [e], by simp [run_append, hes, run, h]⟩

/-- Induction over the reachable states: a property of the initial state that every step
keeps holds in every reachable state. -/
theorem Reachable.induction {n : Int} (P : Prioritized → Prop) (init : P (newPrioritized n))
    (preserve : ∀ s s' e, Reachable n s → P s → Semaphore.step s e = some s' → P s')
    {s : Prioritized} (reach : Reachable n s) : P s := by
  obtain ⟨es, hes⟩ := reach
  suffices ∀ s₀, Reachable n s₀ → P s₀ → ∀ s, run s₀ es = some s → P s from
    this _ (.init n) init s hes
  clear hes
  induction es with
  | nil => intro s₀ _ h₀ s hs; cases hs; exact h₀
  | cons e es ih =>
    intro s₀ r₀ h₀ s hs
    simp only [run, Option.bind_eq_some] at hs
    obtain ⟨s₁, h₁, hs⟩ := hs
    exact ih s₁ (r₀.step h₁) (preserve _ _ _ r₀ h₀ h₁) s hs

theorem Reachable.capacity {n : Int} {s : Prioritized} (reach : Reachable n s) :
    s.capacity = n :=
  Reachable.induction (fun s => s.capacity = n) rfl
    (fun _ _ _ _ cap h => (step_capacity h).trans cap) reach

end Siso.Semaphore
