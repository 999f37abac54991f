import Siso.Semaphore.Invariant

/-!
# What the priority semaphore guarantees

From the invariant: a release hands its slot to a waiting request of greatest weight, and the
count `used` is the number of slot owners, never above the capacity, and equal to it while a
request waits.

Two readings of the semaphore's contract fail on the code.  `priorityQueue.Less` compares
weights only and `container/heap` is not stable, so equal weights are not served in enqueue
order: three waiters of one weight are served as first, third, second.  And
`NewPrioritized` takes any `int`: with a negative capacity no caller ever gets a slot, and
`used = 0` is above the capacity from the start.

The slot numbers `tid` stay in `[0, capacity)`, but two holders can share one: the fast path
numbers a slot `used`, which counts the slots taken and not which of them are free, while a
hand-off passes on the releaser's number.  After the holder of slot 0 gives it back with no
waiter, the next caller is numbered `used = 1` while the holder of slot 1 still holds it.
-/

namespace Siso.Semaphore

open Function

/-- A round of `privateRelease` that starts a hand-off pops the top of the queue, and that
request was still waiting. -/
theorem privateRelease_handoff {s s' : Prioritized} {t : Nat} {g : Handoff}
    (h : privateRelease s t = some s') (handed : s'.ready = some g) :
    s.ready = none ∧ 0 < s.pq.len ∧ g.req = s.pq.get 0 ∧ Waiting s g.req := by
  obtain ⟨tid, -, noReady, ⟨-, rfl⟩ | ⟨nonempty, waiting, rfl⟩ | ⟨-, -, rfl⟩⟩ :=
    privateRelease_eq_some h
  · simp [noReady] at handed
  · cases handed
    exact ⟨noReady, nonempty, Heap.pop_fst _ _, waiting⟩
  · simp [noReady] at handed

/-- A round of `privateRelease` that starts a hand-off gives the slot to a waiting request of
greatest weight. -/
theorem Invariant.handoff_heaviest {s s' : Prioritized} {t : Nat} {g : Handoff}
    (inv : Invariant s) (h : Semaphore.privateRelease s t = some s') (handed : s'.ready = some g) :
    Waiting s g.req ∧ ∀ r, Waiting s r → s.weight r ≤ s.weight g.req := by
  obtain ⟨-, nonempty, top, waiting⟩ := privateRelease_handoff h handed
  refine ⟨waiting, fun r hr => ?_⟩
  obtain ⟨k, hk, rfl⟩ := Slice.mem_toList.1 (inv.waiting_mem r hr)
  rw [top]
  exact inv.ordered.le_get_zero k hk

/-- Whenever a release hands its slot to a queued request, that request is waiting and no
waiting request weighs more. -/
theorem release_hands_to_heaviest {n : Int} {s s' : Prioritized} {t : Nat} {g : Handoff}
    (reach : Reachable n s) (release : step s (.release t) = some s')
    (handed : s'.ready = some g) :
    Waiting s g.req ∧ ∀ r, Waiting s r → s.weight r ≤ s.weight g.req :=
  (Invariant.of_reachable reach).handoff_heaviest release handed

/-- Capacity one: caller 0 holds the slot, callers 1, 2 and 3 wait with equal weight 7, and
caller 0 enters its `done`. -/
def tiedWaiters : List Event :=
  [.waitAcquire 5, .waitAcquire 7, .waitAcquire 7, .waitAcquire 7, .done 0]

/-- The state `tiedWaiters` reaches. -/
def tiedState : Prioritized := (run (newPrioritized 1) tiedWaiters).getD (newPrioritized 1)

theorem release_hands_to_heaviest_tied :
    (Reachable 1 tiedState ∧
      step tiedState (.release 0) = some ((step tiedState (.release 0)).getD tiedState) ∧
      ((step tiedState (.release 0)).getD tiedState).ready = some ⟨0, 1, 0⟩) ∧
    (Waiting tiedState 1 ∧
      ∀ r, Waiting tiedState r → tiedState.weight r ≤ tiedState.weight 1) :=
  have reach : Reachable 1 tiedState := ⟨tiedWaiters, rfl⟩
  ⟨⟨reach, rfl, rfl⟩,
    @release_hands_to_heaviest 1 tiedState _ 0 ⟨0, 1, 0⟩ reach rfl rfl⟩

/-- Caller 1 gets the slot from caller 0 and enters its own `done`. -/
def tiedSecondSteps : List Event := [.release 0, .receive 1, .done 1]

/-- The state after `tiedSecondSteps`: callers 2 and 3 still wait, with equal weight, caller 2
enqueued first. -/
def tiedSecond : Prioritized := (run tiedState tiedSecondSteps).getD tiedState

theorem tiedSecond_reachable : Reachable 1 tiedSecond := ⟨tiedWaiters ++ tiedSecondSteps, rfl⟩

/-- Equal weights are not served in enqueue order: the next release passes over caller 2 and
hands the slot to caller 3. -/
theorem release_not_fifo :
    ¬ ∀ s s' t g r, Reachable 1 s → step s (.release t) = some s' → s'.ready = some g →
      Waiting s r → s.weight r = s.weight g.req → g.req ≤ r := fun fifo =>
  absurd (fifo tiedSecond ((step tiedSecond (.release 1)).getD tiedSecond) 1 ⟨1, 3, 0⟩ 2
    tiedSecond_reachable rfl rfl rfl rfl) (by decide)

/-- In every reachable state of a semaphore of capacity `c ≥ 0`, `used` is the number of
callers that own a slot (holders, and releases whose hand-off is in flight), `used ≤ c`,
`used = c` while a request in the queue is still waiting, and a caller whose `WaitAcquire`
failed has its request canceled and owns no slot. -/
theorem slots_conserved {n : Int} (nonneg : 0 ≤ n) {s : Prioritized} (reach : Reachable n s) :
    s.used = holders s ∧ s.used ≤ s.capacity ∧
      ((∃ r ∈ s.pq.toList, Waiting s r) → s.used = s.capacity) ∧
      ∀ t, s.phase t = .failed →
        s.state t = some .canceled ∧ (s.phase t).ownsSlot = false := by
  have inv := Invariant.of_reachable reach
  have bound : max s.capacity 0 = s.capacity := max_eq_left (reach.capacity ▸ nonneg)
  refine ⟨inv.used_eq, bound ▸ inv.used_le, fun ⟨r, hr, _⟩ => ?_,
    fun t ht => ⟨inv.failed_state t ht, by simp [ht]⟩⟩
  rw [← bound]
  exact inv.queue_full (Slice.length_toList s.pq ▸ List.length_pos_of_mem hr)

theorem slots_conserved_tied :
    (0 ≤ (1 : Int) ∧ Reachable 1 tiedSecond) ∧
      (tiedSecond.used = holders tiedSecond ∧ tiedSecond.used ≤ tiedSecond.capacity ∧
        ((∃ r ∈ tiedSecond.pq.toList, Waiting tiedSecond r) →
          tiedSecond.used = tiedSecond.capacity) ∧
        ∀ t, tiedSecond.phase t = .failed →
          tiedSecond.state t = some .canceled ∧ (tiedSecond.phase t).ownsSlot = false) :=
  ⟨⟨by decide, tiedSecond_reachable⟩, slots_conserved (by decide) tiedSecond_reachable⟩

/-- With a negative capacity the bound `used ≤ capacity` fails at once: `NewPrioritized`
starts with `used = 0`. -/
theorem negative_capacity_over_bound :
    ¬ ∀ s, Reachable (-1) s → s.used ≤ s.capacity := fun bound =>
  absurd (bound _ (Reachable.init (-1))) (by decide)

/-- A call of `WaitAcquire` taking `mu`: the one event that adds a request. -/
def Event.arrival : Event → Bool
  | .waitAcquire _ => true
  | _ => false

/-- The requests that a run from `s` hands a slot to, in order: one for each round of
`privateRelease` that starts a send `req.ready <- tid`. -/
def grants : Prioritized → List Event → List Nat
  | _, [] => []
  | s, e :: es =>
    match step s e with
    | none => []
    | some s' =>
      match e, s'.ready with
      | .release _, some g => g.req :: grants s' es
      | _, _ => grants s' es

/-- A step that is no arrival keeps the weights, and a request waiting after it was waiting
before: requests only leave the waiting state, by a cancellation or a release. -/
theorem step_frame {s s' : Prioritized} {e : Event} (h : step s e = some s')
    (noArrival : e.arrival = false) :
    s'.weight = s.weight ∧ ∀ r, Waiting s' r → Waiting s r := by
  -- every other step keeps `state`, or moves one request out of `stateWaiting`
  have leaves : ∀ t v, v ≠ some .waiting → ∀ r,
      Waiting { s with state := update s.state t v } r → Waiting s r :=
    fun _ _ ne r hr => (eq_of_update_eq hr ne).2
  cases e with
  | waitAcquire w => cases noArrival
  | receive t => obtain ⟨-, -, -, -, rfl⟩ := receive_eq_some h; exact ⟨rfl, fun _ => id⟩
  | cancel t =>
    obtain ⟨-, ⟨-, rfl⟩ | ⟨-, rfl⟩⟩ := cancel_eq_some h
    · exact ⟨rfl, leaves _ _ (by simp)⟩
    · exact ⟨rfl, fun _ => id⟩
  | remove t => obtain ⟨-, -, rfl⟩ := removeCanceled_eq_some h; exact ⟨rfl, fun _ => id⟩
  | done t => obtain ⟨-, -, -, rfl⟩ := done_eq_some h; exact ⟨rfl, fun _ => id⟩
  | release t =>
    obtain ⟨tid, -, -, ⟨-, rfl⟩ | ⟨-, -, rfl⟩ | ⟨-, -, rfl⟩⟩ := privateRelease_eq_some h
    · exact ⟨rfl, fun _ => id⟩
    · exact ⟨rfl, leaves _ _ (by simp)⟩
    · exact ⟨rfl, fun _ => id⟩

/-- While no request arrives, a run hands its slots to requests that were waiting at its start,
in order of non-increasing weight: each hand-off goes to a heaviest waiting request, and the
waiting requests only become fewer. -/
theorem grants_by_weight {n : Int} {s : Prioritized} (reach : Reachable n s) (es : List Event)
    (noArrivals : ∀ e ∈ es, e.arrival = false) :
    (∀ r ∈ grants s es, Waiting s r) ∧
      (grants s es).Pairwise fun r r' => s.weight r' ≤ s.weight r := by
  induction es generalizing s with
  | nil => exact ⟨fun _ h => absurd h (List.not_mem_nil _), .nil⟩
  | cons e es ih =>
    unfold grants
    cases hs : step s e with
    | none => exact ⟨fun _ h => absurd h (List.not_mem_nil _), .nil⟩
    | some s' =>
      obtain ⟨sameWeight, waitingBefore⟩ := step_frame hs (noArrivals e (.head es))
      obtain ⟨later, sorted⟩ := ih (reach.step hs) fun e' he' => noArrivals e' (.tail e he')
      rw [sameWeight] at sorted
      have later : ∀ r ∈ grants s' es, Waiting s r := fun r hr => waitingBefore r (later r hr)
      dsimp only
      split
      · rename_i t g handed
        obtain ⟨waiting, heaviest⟩ :=
          (Invariant.of_reachable reach).handoff_heaviest (t := t) hs handed
        exact ⟨List.forall_mem_cons.2 ⟨waiting, later⟩,
          .cons (fun r hr => heaviest r (later r hr)) sorted⟩
      · exact ⟨later, sorted⟩

/-- Capacity three: callers 0, 1 and 2 hold the slots, and callers 3 to 7 wait with weights 10,
1, 50, 5 and 20. -/
def weightedWaiters : List Event :=
  [.waitAcquire 0, .waitAcquire 0, .waitAcquire 0, .waitAcquire 10, .waitAcquire 1,
    .waitAcquire 50, .waitAcquire 5, .waitAcquire 20]

/-- The state `weightedWaiters` reaches. -/
def weightedState : Prioritized :=
  (run (newPrioritized 3) weightedWaiters).getD (newPrioritized 3)

/-- Each holder in turn releases its slot, and the receiver takes it. -/
def weightedReleases : List Event :=
  [.done 0, .release 0, .receive 5, .done 1, .release 1, .receive 7, .done 2, .release 2,
    .receive 3, .done 5, .release 5, .receive 6, .done 7, .release 7, .receive 4]

/-- The five waiters get the slots in the order 50, 20, 10, 5, 1 of their weights. -/
theorem grants_by_weight_five :
    (Reachable 3 weightedState ∧ ∀ e ∈ weightedReleases, e.arrival = false) ∧
      ((∀ r ∈ grants weightedState weightedReleases, Waiting weightedState r) ∧
        (grants weightedState weightedReleases).Pairwise fun r r' =>
          weightedState.weight r' ≤ weightedState.weight r) ∧
      (grants weightedState weightedReleases).map weightedState.weight = [50, 20, 10, 5, 1] :=
  have reach : Reachable 3 weightedState := ⟨weightedWaiters, rfl⟩
  ⟨⟨reach, by decide⟩, grants_by_weight reach weightedReleases (by decide), by decide⟩

/-! ## Slot numbers -/

/-- The number of the slot a caller owns: its `tid` while it holds the slot, and while its
`done` runs `privateRelease(tid)`. -/
def Phase.slot : Phase → Option Int
  | .holding tid | .releasing tid => some tid
  | _ => none

/-- Every slot a caller owns, and every slot a hand-off in flight passes on, is numbered in
`[0, capacity)`. -/
structure SlotsInRange (s : Prioritized) : Prop where
  owned : ∀ t tid, (s.phase t).slot = some tid → 0 ≤ tid ∧ tid < s.capacity
  handoff : ∀ ho, s.ready = some ho → 0 ≤ ho.tid ∧ ho.tid < s.capacity

/-- Moving one caller to a phase whose slot has a property keeps the property for every
caller. -/
theorem slot_update {phase : Nat → Phase} {P : Int → Prop}
    (old : ∀ t tid, (phase t).slot = some tid → P tid) {t : Nat} {v : Phase}
    (new : ∀ tid, v.slot = some tid → P tid) :
    ∀ u tid, (update phase t v u).slot = some tid → P tid := by
  intro u tid hu
  rcases eq_or_ne u t with rfl | ne
  · exact new tid (by simpa using hu)
  · exact old u tid (by simpa [update_noteq ne] using hu)

namespace SlotsInRange

variable {s s' : Prioritized}

theorem init (n : Int) : SlotsInRange (newPrioritized n) where
  owned _ _ h := by simp [newPrioritized, Phase.slot] at h
  handoff _ h := by simp [newPrioritized] at h

/-- Every step keeps the slot numbers in range: the fast path numbers a slot `used`, below the
capacity, and `done`, a hand-off and its receipt pass a number on. -/
theorem step (inv : Invariant s) (slots : SlotsInRange s) {e : Event}
    (h : Semaphore.step s e = some s') : SlotsInRange s' := by
  have none : ∀ tid, Phase.slot .released = some tid → 0 ≤ tid ∧ tid < s.capacity := by
    simp [Phase.slot]
  cases e with
  | waitAcquire w =>
    obtain ⟨-, ⟨free, rfl⟩ | ⟨-, rfl⟩⟩ := waitAcquire_eq_some h
    · refine ⟨slot_update slots.owned fun tid ht => ?_, slots.handoff⟩
      cases ht
      exact ⟨inv.used_eq ▸ Int.ofNat_nonneg _, free⟩
    · exact ⟨slot_update slots.owned (by simp [Phase.slot]), slots.handoff⟩
  | receive t =>
    obtain ⟨ho, hready, rfl, -, rfl⟩ := receive_eq_some h
    exact ⟨slot_update (slot_update slots.owned none) fun tid ht => by
      cases ht; exact slots.handoff ho hready, by simp⟩
  | cancel t =>
    obtain ⟨-, ⟨-, rfl⟩ | ⟨-, rfl⟩⟩ := cancel_eq_some h <;>
      exact ⟨slot_update slots.owned (by simp [Phase.slot]), slots.handoff⟩
  | remove t =>
    obtain ⟨-, -, rfl⟩ := removeCanceled_eq_some h
    exact ⟨slot_update slots.owned (by simp [Phase.slot]), slots.handoff⟩
  | done t =>
    obtain ⟨tid, holding, -, rfl⟩ := done_eq_some h
    exact ⟨slot_update slots.owned fun tid' ht => by
      cases ht; exact slots.owned t tid (by simp [holding, Phase.slot]), slots.handoff⟩
  | release t =>
    obtain ⟨tid, releasing, -, ⟨-, rfl⟩ | ⟨-, -, rfl⟩ | ⟨-, -, rfl⟩⟩ := privateRelease_eq_some h
    · exact ⟨slot_update slots.owned none, slots.handoff⟩
    · refine ⟨slots.owned, fun ho hr => ?_⟩
      cases hr
      exact slots.owned t tid (by simp [releasing, Phase.slot])
    · exact ⟨slots.owned, slots.handoff⟩

theorem of_reachable {n : Int} (reach : Reachable n s) : SlotsInRange s :=
  (Reachable.induction (fun s => Invariant s ∧ SlotsInRange s) ⟨Invariant.init n, init n⟩
    (fun _ _ _ _ ⟨inv, slots⟩ h => ⟨inv.step h, slots.step inv h⟩) reach).2

end SlotsInRange

/-- In every reachable state of a semaphore of capacity `n`, a caller that holds a slot holds
one numbered in `[0, n)`. -/
theorem held_slot_in_range {n : Int} {s : Prioritized} (reach : Reachable n s) {t : Nat}
    {tid : Int} (holding : s.phase t = .holding tid) : 0 ≤ tid ∧ tid < n :=
  reach.capacity ▸ (SlotsInRange.of_reachable reach).owned t tid (by simp [holding, Phase.slot])

/-- Capacity two: callers 0 and 1 take slots 0 and 1 on the fast path, caller 0 gives its slot
back with no waiter (`used--`), and caller 2 takes the fast path. -/
def slotReuse : List Event :=
  [.waitAcquire 0, .waitAcquire 0, .done 0, .release 0, .waitAcquire 0]

/-- The state `slotReuse` reaches. -/
def slotReuseState : Prioritized := (run (newPrioritized 2) slotReuse).getD (newPrioritized 2)

theorem held_slot_in_range_reuse :
    (Reachable 2 slotReuseState ∧ slotReuseState.phase 2 = .holding 1) ∧
      (0 ≤ (1 : Int) ∧ (1 : Int) < 2) :=
  have reach : Reachable 2 slotReuseState := ⟨slotReuse, rfl⟩
  have holding : slotReuseState.phase 2 = .holding 1 := rfl
  ⟨⟨reach, holding⟩, held_slot_in_range reach holding⟩

/-- Two holders share a slot number: caller 2 is numbered `used = 1` while caller 1 still holds
slot 1. -/
theorem fast_path_reuses_held_slot :
    Reachable 2 slotReuseState ∧ slotReuseState.phase 1 = .holding 1 ∧
      slotReuseState.phase 2 = .holding 1 :=
  ⟨⟨slotReuse, rfl⟩, rfl, rfl⟩

end Siso.Semaphore
