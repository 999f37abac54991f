import Siso.Semaphore.Properties

/-!
# Progress of the priority semaphore

With no new caller, the callers in flight always get through.  Every run of the other events is
finite, at most `2·|pq| + 4·callers + 1` steps long, because each step lowers `potential`.  And
with a capacity of at least one, a state in which no event but a new call or a cancellation can
happen has every caller returned, every `done` returned, `used = 0` and an empty queue.  So
every interleaving of releases, hand-offs and removals ends, and ends there: the semaphore
neither deadlocks nor leaks a slot.

This needs more than `Invariant`.  `Flow` says where the mutex and a hand-off in flight stand:
`mu` is held only by a caller inside `privateRelease`; a hand-off goes to a request acquired for
it whose caller still waits for it; a request still `stateWaiting` belongs to a caller in the
`select`, and a caller in the `select` whose request no longer waits has a hand-off coming, as
does a caller that lost the race to a release; and the queue holds only requests that still wait
or whose caller won the race to cancel them.  All but the first are about one caller at a time
(`Local`), so a step that moves one caller keeps them for every other caller as they were.
-/

namespace Siso.Semaphore

open Function

/-- A caller in the middle of `WaitAcquire`, or owning a slot until its `done` returns. -/
def Phase.active : Phase → Bool
  | .idle | .failed | .released => false
  | _ => true

/-- A cancellation: `<-ctx.Done()` in a caller's `select`. -/
def Event.cancellation : Event → Bool
  | .cancel _ => true
  | _ => false

/-- A hand-off to caller `t` is in flight: a release is sending it a `tid`. -/
def HandoffTo (s : Prioritized) (t : Nat) : Prop := ∃ ho, s.ready = some ho ∧ ho.req = t

/-- What `Flow` says of one caller, from its phase, the state of its request, whether a hand-off
to it is in flight and whether its request is in the queue. -/
structure Local (phase : Phase) (state : Option ReqState) (handoff queued : Prop) : Prop where
  waiting : state = some .waiting → phase = .queued
  selecting : phase = .queued → state = some .waiting ∨ handoff
  draining : phase = .draining → handoff
  handoff : handoff → (phase = .queued ∨ phase = .draining) ∧ state = some .acquired
  queue : queued → (phase = .queued ∧ state = some .waiting) ∨ phase = .canceling

/-- Where the mutex and the hand-offs stand in every reachable state. -/
structure Flow (s : Prioritized) : Prop where
  mu_held : s.mu = true → ∃ t tid, s.phase t = .releasing tid
  each : ∀ t, Local (s.phase t) (s.state t) (HandoffTo s t) (t ∈ s.pq.toList)

section Local

variable {p : Phase} {st : Option ReqState} {ho ho' q q' : Prop}

theorem Local.weaken (h : Local p st ho q) (handoff : ho' ↔ ho) (queue : q' → q) :
    Local p st ho' q' :=
  ⟨h.waiting, fun hp => (h.selecting hp).imp_right handoff.2, fun hp => handoff.2 (h.draining hp),
    fun hh => h.handoff (handoff.1 hh), fun hq => h.queue (queue hq)⟩

/-- A caller outside the `select` and not canceling: its request does not wait, no hand-off goes
to it, and its request is not in the queue. -/
theorem local_iff_of_settled (hq : p ≠ .queued) (hd : p ≠ .draining) (hc : p ≠ .canceling) :
    Local p st ho q ↔ st ≠ some .waiting ∧ ¬ho ∧ ¬q :=
  ⟨fun h => ⟨fun w => hq (h.waiting w), fun hh => (h.handoff hh).1.elim hq hd,
      fun hh => (h.queue hh).elim (fun x => hq x.1) hc⟩,
    fun ⟨nw, nh, nq⟩ => ⟨fun w => absurd w nw, fun e => absurd e hq, fun e => absurd e hd,
      fun e => absurd e nh, fun e => absurd e nq⟩⟩

end Local

theorem handoffTo_none {s : Prioritized} (h : s.ready = none) (t : Nat) : ¬HandoffTo s t := by
  rintro ⟨ho, hr, -⟩; simp [h] at hr

namespace Flow

variable {s s' : Prioritized}

theorem init (n : Int) : Flow (newPrioritized n) where
  mu_held h := by simp [newPrioritized] at h
  each _ := (local_iff_of_settled (by simp [newPrioritized]) (by simp [newPrioritized])
    (by simp [newPrioritized])).2
      ⟨by simp [newPrioritized], handoffTo_none rfl _, by simp [newPrioritized, Slice.toList]⟩

/-- The section of `WaitAcquire` under `mu` keeps `Flow`: the new caller takes a slot or waits in
the `select` with its request in the queue. -/
theorem waitAcquire (inv : Invariant s) (flow : Flow s) {w : Int}
    (h : Semaphore.waitAcquire s w = some s') : Flow s' := by
  have fresh := (local_iff_of_settled (p := .idle) (by simp) (by simp) (by simp)).1
    (inv.idle_beyond s.callers le_rfl ▸ flow.each s.callers)
  obtain ⟨unlocked, ⟨-, rfl⟩ | ⟨-, rfl⟩⟩ := waitAcquire_eq_some h
  · refine ⟨fun h => by simp [unlocked] at h, fun u => ?_⟩
    rcases eq_or_ne u s.callers with rfl | ne
    · simpa only [update_same] using (local_iff_of_settled (by simp) (by simp) (by simp)).2 fresh
    · simpa only [update_noteq ne] using flow.each u
  · refine ⟨fun h => by simp [unlocked] at h, fun u => ?_⟩
    have pushed := (Heap.push_perm (Heap.byKey (update s.weight s.callers w)) s.pq s.callers).subset
    rcases eq_or_ne u s.callers with rfl | ne
    · simp only [update_same]
      exact ⟨fun _ => rfl, fun _ => .inl rfl, fun e => absurd e (by simp),
        fun e => absurd e fresh.2.1, fun _ => .inl ⟨rfl, rfl⟩⟩
    · simp only [update_noteq ne]
      refine (flow.each u).weaken Iff.rfl fun hu => ?_
      rcases List.mem_append.1 (pushed hu) with hu | hu
      · exact hu
      · exact absurd (List.mem_singleton.1 hu) ne

/-- A hand-off meeting its receiver keeps `Flow`: the receiver holds the slot, the releaser has
returned, and no hand-off is in flight. -/
theorem receive (inv : Invariant s) (flow : Flow s) {t : Nat}
    (h : Semaphore.receive s t = some s') : Flow s' := by
  obtain ⟨ho, hready, rfl, waiting, rfl⟩ := receive_eq_some h
  have relPhase := inv.ready_releaser ho hready
  have ne : ho.releaser ≠ ho.req := fun eq => by rcases waiting with w | w <;> simp_all
  have none' : ∀ u, ¬HandoffTo { s with ready := none } u := handoffTo_none rfl
  refine ⟨fun h => by simp at h, fun u => ?_⟩
  simp only
  rcases eq_or_ne u ho.req with rfl | neReq
  · -- the receiver: its request was acquired for it, so it is not in the queue
    have old := flow.each ho.req
    have acquired := (old.handoff ⟨ho, hready, rfl⟩).2
    rw [update_same]
    refine (local_iff_of_settled (by simp) (by simp) (by simp)).2
      ⟨by simp [acquired], none' _, fun hq => ?_⟩
    rcases old.queue hq with ⟨-, w⟩ | c
    · simp [acquired] at w
    · rcases waiting with w | w <;> simp_all
  · rw [update_noteq neReq]
    rcases eq_or_ne u ho.releaser with rfl | neRel
    · have old := (local_iff_of_settled (by simp [relPhase]) (by simp [relPhase])
        (by simp [relPhase])).1 (flow.each ho.releaser)
      rw [update_same]
      exact (local_iff_of_settled (by simp) (by simp) (by simp)).2 ⟨old.1, none' _, old.2.2⟩
    · rw [update_noteq neRel]
      exact (flow.each u).weaken (iff_of_false (none' u)
        fun ⟨ho', hr, hreq⟩ => neReq (by simp_all)) id

/-- A cancellation keeps `Flow`: the winner of the race is canceling with its request canceled,
and the loser has its hand-off coming. -/
theorem cancel (flow : Flow s) {t : Nat} (h : Semaphore.cancel s t = some s') : Flow s' := by
  obtain ⟨queued, ⟨waiting, rfl⟩ | ⟨notWaiting, rfl⟩⟩ := cancel_eq_some h
  all_goals
    have old := flow.each t
    rw [queued] at old
    have muHeld : ∀ v, s.mu = true → ∃ u tid, update s.phase t v u = .releasing tid :=
      fun v hm => by
        obtain ⟨u, tid, hu⟩ := flow.mu_held hm
        exact ⟨u, tid, by rw [update_noteq (by rintro rfl; simp [queued] at hu)]; exact hu⟩
    refine ⟨muHeld _, fun u => ?_⟩
    rcases eq_or_ne u t with rfl | ne
    swap
    · simpa only [update_noteq ne] using flow.each u
    simp only [update_same]
  · -- the race won
    have noHandoff : ¬HandoffTo s u := fun hh => by simp [(old.handoff hh).2] at waiting
    exact ⟨by simp, by simp, by simp, fun hh => absurd hh noHandoff, fun _ => .inr rfl⟩
  · -- the race lost: the hand-off is coming
    have handoff := (old.selecting rfl).resolve_left notWaiting
    refine ⟨fun w => absurd w notWaiting, by simp, fun _ => handoff,
      fun _ => ⟨.inr rfl, (old.handoff handoff).2⟩, fun hq => ?_⟩
    rcases old.queue hq with ⟨-, w⟩ | c
    · exact absurd w notWaiting
    · simp at c

/-- Removing a canceled request keeps `Flow`: the request leaves the queue as its caller
fails. -/
theorem removeCanceled (inv : Invariant s) (flow : Flow s) {t : Nat}
    (h : Semaphore.removeCanceled s t = some s') : Flow s' := by
  obtain ⟨unlocked, canceling, rfl⟩ := removeCanceled_eq_some h
  obtain ⟨mem, -, -, -⟩ := remove_spec t inv.nodup inv.ordered
  refine ⟨fun h => by simp [unlocked] at h, fun u => ?_⟩
  simp only
  rcases eq_or_ne u t with rfl | ne
  · have old := flow.each u
    rw [canceling] at old
    rw [update_same]
    exact (local_iff_of_settled (by simp) (by simp) (by simp)).2
      ⟨fun w => by simpa using old.waiting w, fun hh => by simpa using (old.handoff hh).1,
        fun hq => ((mem u).1 hq).2 rfl⟩
  · rw [update_noteq ne]
    exact (flow.each u).weaken Iff.rfl fun hq => ((mem u).1 hq).1

/-- Entering `privateRelease` keeps `Flow`: the caller takes `mu`. -/
theorem done (flow : Flow s) {t : Nat} (h : Semaphore.done s t = some s') : Flow s' := by
  obtain ⟨tid, holding, -, rfl⟩ := done_eq_some h
  refine ⟨fun _ => ⟨t, tid, update_same _ _ _⟩, fun u => ?_⟩
  rcases eq_or_ne u t with rfl | ne
  · have old := (local_iff_of_settled (by simp [holding]) (by simp [holding])
      (by simp [holding])).1 (flow.each u)
    simpa only [update_same] using (local_iff_of_settled (by simp) (by simp) (by simp)).2 old
  · simpa only [update_noteq ne] using flow.each u

/-- A round of `privateRelease` keeps `Flow`: it hands the slot to the request it pops, which
still waits, or drops a canceled request, or gives the slot back and unlocks `mu`. -/
theorem privateRelease (inv : Invariant s) (flow : Flow s) {t : Nat}
    (h : Semaphore.privateRelease s t = some s') : Flow s' := by
  obtain ⟨tid, releasing, noReady, ⟨-, rfl⟩ | ⟨nonempty, waiting, rfl⟩ |
    ⟨nonempty, -, rfl⟩⟩ := privateRelease_eq_some h
  · -- the slot given back: the releaser returns
    refine ⟨fun h => by simp at h, fun u => ?_⟩
    rcases eq_or_ne u t with rfl | ne
    · have old := (local_iff_of_settled (by simp [releasing]) (by simp [releasing])
        (by simp [releasing])).1 (flow.each u)
      simpa only [update_same] using (local_iff_of_settled (by simp) (by simp) (by simp)).2 old
    · simpa only [update_noteq ne] using flow.each u
  · -- the hand-off to the top request
    obtain ⟨-, mem, -, -⟩ := pop_spec nonempty inv.nodup inv.ordered
    refine ⟨flow.mu_held, fun u => ?_⟩
    simp only
    rcases eq_or_ne u (Heap.pop (Heap.byKey s.weight) s.pq).1 with rfl | ne
    · rw [update_same]
      exact ⟨by simp, fun _ => .inr ⟨_, rfl, rfl⟩, fun _ => ⟨_, rfl, rfl⟩,
        fun _ => ⟨.inl ((flow.each _).waiting waiting), rfl⟩,
        fun hq => ((mem _).1 hq).2 rfl |>.elim⟩
    · rw [update_noteq ne]
      exact (flow.each u).weaken (iff_of_false (fun ⟨_, hr, hreq⟩ => by
        cases hr; exact ne hreq.symm) (handoffTo_none noReady u)) fun hq => ((mem u).1 hq).1
  · -- a request no longer waiting dropped
    obtain ⟨-, mem, -, -⟩ := pop_spec nonempty inv.nodup inv.ordered
    exact ⟨flow.mu_held, fun u => (flow.each u).weaken Iff.rfl fun hq => ((mem u).1 hq).1⟩

/-- Every step keeps `Flow`. -/
theorem step (inv : Invariant s) (flow : Flow s) {e : Event} (h : Semaphore.step s e = some s') :
    Flow s' := by
  cases e with
  | waitAcquire w => exact flow.waitAcquire inv h
  | receive t => exact flow.receive inv h
  | cancel t => exact flow.cancel h
  | remove t => exact flow.removeCanceled inv h
  | done t => exact flow.done h
  | release t => exact flow.privateRelease inv h

/-- Every reachable state satisfies `Flow`. -/
theorem of_reachable {n : Int} (reach : Reachable n s) : Flow s :=
  Reachable.induction Flow (init n)
    (fun _ _ _ r flow h => flow.step (Invariant.of_reachable r) h) reach

/-- Where every caller is active, no event but a new call or a cancellation is needed: some
other event can happen, as long as the capacity is at least one. -/
theorem progress (inv : Invariant s) (flow : Flow s) (cap : 1 ≤ s.capacity) {t : Nat}
    (active : (s.phase t).active) :
    ∃ e, e.arrival = false ∧ e.cancellation = false ∧ (Semaphore.step s e).isSome := by
  cases hr : s.ready with
  | some ho =>
    -- the hand-off in flight can meet its receiver
    have receiving := ((flow.each ho.req).handoff ⟨ho, hr, rfl⟩).1
    exact ⟨.receive ho.req, rfl, rfl, by
      simp [Semaphore.step, Semaphore.receive, hr, receiving]⟩
  | none =>
    by_cases releasing : ∃ u tid, s.phase u = .releasing tid
    · -- a caller inside `privateRelease` goes round its loop
      obtain ⟨u, tid, hu⟩ := releasing
      refine ⟨.release u, rfl, rfl, ?_⟩
      simp only [Semaphore.step, Semaphore.privateRelease, hu, hr, Option.isSome_none,
        Bool.false_eq_true, if_false]
      split_ifs <;> rfl
    have unlocked : s.mu = false := by
      cases hm : s.mu
      · rfl
      · exact absurd (flow.mu_held hm) releasing
    by_cases holding : ∃ u tid, s.phase u = .holding tid
    · obtain ⟨u, tid, hu⟩ := holding
      exact ⟨.done u, rfl, rfl, by simp [Semaphore.step, Semaphore.done, hu, unlocked]⟩
    by_cases canceling : ∃ u, s.phase u = .canceling
    · obtain ⟨u, hu⟩ := canceling
      exact ⟨.remove u, rfl, rfl,
        by simp [Semaphore.step, Semaphore.removeCanceled, hu, unlocked]⟩
    -- else the caller waits in the `select`, its request in the queue: every slot is owned
    push_neg at releasing holding canceling
    exfalso
    have queued : s.phase t = .queued := by
      cases ht : s.phase t with
      | queued => rfl
      | draining => exact absurd ((flow.each t).draining ht) (handoffTo_none hr t)
      | canceling => exact absurd ht (canceling t)
      | holding tid => exact absurd ht (holding t tid)
      | releasing tid => exact absurd ht (releasing t tid)
      | _ => simp [ht, Phase.active] at active
    have waiting := ((flow.each t).selecting queued).resolve_right (handoffTo_none hr t)
    have full := inv.queue_full
      (Slice.length_toList s.pq ▸ List.length_pos_of_mem (inv.waiting_mem t waiting))
    have owned : 0 < holders s := by have := inv.used_eq; omega
    obtain ⟨u, -, owns⟩ := List.countP_pos_iff.1 owned
    cases hu : s.phase u with
    | holding tid => exact holding u tid hu
    | releasing tid => exact releasing u tid hu
    | _ => simp [hu, Phase.ownsSlot] at owns

/-- Where no caller is active, no slot is owned and the queue is empty. -/
theorem settled (inv : Invariant s) (flow : Flow s)
    (inactive : ∀ t, (s.phase t).active = false) : s.used = 0 ∧ s.pq.len = 0 := by
  constructor
  · have noOwner : holders s = 0 := by
      rw [holders, List.countP_eq_zero]
      intro t _
      have idle := inactive t
      revert idle
      cases s.phase t <;> simp [Phase.active, Phase.ownsSlot]
    rw [inv.used_eq, noOwner]
    rfl
  · rw [← Slice.length_toList, List.length_eq_zero, List.eq_nil_iff_forall_not_mem]
    intro r hr
    have := inactive r
    rcases (flow.each r).queue hr with ⟨queued, -⟩ | canceling <;> simp_all [Phase.active]

end Flow

/-- How many more steps a caller in the phase takes at most, with no new caller. -/
def Phase.stepsLeft : Phase → Nat
  | .queued => 4
  | .draining => 3
  | .holding _ => 2
  | .releasing _ | .canceling => 1
  | .idle | .failed | .released => 0

/-- The steps the callers below `n` have left. -/
def stepsSum (phase : Nat → Phase) : Nat → Nat
  | 0 => 0
  | n + 1 => stepsSum phase n + (phase n).stepsLeft

/-- What every event but a new call lowers: two for each request in the queue, one for a
hand-off in flight, and the steps each caller has left. -/
def potential (s : Prioritized) : Nat :=
  2 * s.pq.len + (if s.ready.isSome then 1 else 0) + stepsSum s.phase s.callers

section StepsSum

variable (f : Nat → Phase) {t : Nat} (v : Phase)

theorem stepsSum_update_of_le : ∀ {n}, n ≤ t → stepsSum (update f t v) n = stepsSum f n
  | 0, _ => rfl
  | n + 1, hn => by
    rw [stepsSum, stepsSum, stepsSum_update_of_le (by omega), update_noteq (by omega)]

/-- Moving caller `t` to phase `v` changes the sum by the steps `v` has left instead of those
`t` had. -/
theorem stepsSum_update : ∀ {n}, t < n →
    stepsSum (update f t v) n + (f t).stepsLeft = stepsSum f n + v.stepsLeft
  | 0, ht => absurd ht (Nat.not_lt_zero _)
  | n + 1, ht => by
    rcases Nat.lt_succ_iff_lt_or_eq.1 ht with lt | rfl
    · have := stepsSum_update lt
      rw [stepsSum, stepsSum, update_noteq (by omega)]
      omega
    · rw [stepsSum, stepsSum, stepsSum_update_of_le f v le_rfl, update_same]
      omega

/-- Moving caller `t` on to a phase with fewer steps left lowers the sum. -/
theorem stepsSum_update_lt {n : Nat} (ht : t < n) (fewer : v.stepsLeft < (f t).stepsLeft) :
    stepsSum (update f t v) n < stepsSum f n := by
  have := stepsSum_update f v ht
  omega

theorem stepsSum_le : ∀ n, stepsSum f n ≤ 4 * n
  | 0 => le_rfl
  | n + 1 => by
    have := stepsSum_le n
    have : (f n).stepsLeft ≤ 4 := by cases f n <;> simp [Phase.stepsLeft]
    rw [stepsSum]
    omega

end StepsSum

theorem potential_le (s : Prioritized) : potential s ≤ 2 * s.pq.len + 4 * s.callers + 1 := by
  have := stepsSum_le s.phase s.callers
  unfold potential
  split <;> omega

section Potential

variable {s s' : Prioritized}

/-- Every event but a new call lowers the potential. -/
theorem step_potential (inv : Invariant s) {e : Event} (h : step s e = some s')
    (noArrival : e.arrival = false) : potential s' < potential s := by
  cases e with
  | waitAcquire w => cases noArrival
  | receive t =>
    -- the releaser returns, the receiver holds the slot, and the hand-off is over
    obtain ⟨ho, hready, rfl, waiting, rfl⟩ := receive_eq_some h
    have relPhase := inv.ready_releaser ho hready
    have ne : ho.req ≠ ho.releaser := fun eq => by rcases waiting with w | w <;> simp_all
    have reqLt := inv.lt_callers (t := ho.req) (by rcases waiting with w | w <;> simp [w])
    have relLt := inv.lt_callers (t := ho.releaser) (by simp [relPhase])
    have toReceiver := stepsSum_update (update s.phase ho.releaser .released)
      (.holding ho.tid) reqLt
    have fromReleaser := stepsSum_update s.phase .released relLt
    have receiverLeft : 3 ≤ (s.phase ho.req).stepsLeft := by
      rcases waiting with w | w <;> simp [w, Phase.stepsLeft]
    rw [update_noteq ne] at toReceiver
    simp only [relPhase, Phase.stepsLeft] at toReceiver fromReleaser receiverLeft
    simp only [potential, hready, Option.isSome_some, Option.isSome_none, if_true,
      Bool.false_eq_true, if_false]
    omega
  | cancel t =>
    obtain ⟨queued, ⟨-, rfl⟩ | ⟨-, rfl⟩⟩ := cancel_eq_some h
    · have := stepsSum_update_lt s.phase .canceling (inv.lt_callers (t := t) (by simp [queued]))
        (by simp [queued, Phase.stepsLeft])
      simp only [potential]; omega
    · have := stepsSum_update_lt s.phase .draining (inv.lt_callers (t := t) (by simp [queued]))
        (by simp [queued, Phase.stepsLeft])
      simp only [potential]; omega
  | remove t =>
    obtain ⟨-, canceling, rfl⟩ := removeCanceled_eq_some h
    obtain ⟨-, -, -, shorter⟩ := remove_spec t inv.nodup inv.ordered
    have := stepsSum_update_lt s.phase .failed (inv.lt_callers (t := t) (by simp [canceling]))
      (by simp [canceling, Phase.stepsLeft])
    simp only [potential]; omega
  | done t =>
    obtain ⟨tid, holding, -, rfl⟩ := done_eq_some h
    have := stepsSum_update_lt s.phase (.releasing tid)
      (inv.lt_callers (t := t) (by simp [holding])) (by simp [holding, Phase.stepsLeft])
    simp only [potential]; omega
  | release t =>
    obtain ⟨tid, releasing, noReady, ⟨-, rfl⟩ | ⟨nonempty, -, rfl⟩ | ⟨nonempty, -, rfl⟩⟩ :=
      privateRelease_eq_some h
    · have := stepsSum_update_lt s.phase .released
        (inv.lt_callers (t := t) (by simp [releasing])) (by simp [releasing, Phase.stepsLeft])
      simp only [potential]; omega
    -- a round that pops a request: two less for it, one more for a hand-off started
    all_goals simp only [potential, noReady, Heap.pop_len, Option.isSome_some,
      Option.isSome_none, if_true, Bool.false_eq_true, if_false]; omega

/-- A run without new calls is at most as long as the potential it starts from. -/
theorem run_length_le_potential {n : Int} (reach : Reachable n s) {es : List Event}
    (h : run s es = some s') (noArrivals : ∀ e ∈ es, e.arrival = false) :
    es.length ≤ potential s := by
  induction es generalizing s with
  | nil => exact Nat.zero_le _
  | cons e es ih =>
    simp only [run, Option.bind_eq_some] at h
    obtain ⟨s₁, first, rest⟩ := h
    have lower := step_potential (Invariant.of_reachable reach) first (noArrivals e (.head _))
    have := ih (reach.step first) rest fun e' he' => noArrivals e' (.tail _ he')
    simp only [List.length_cons]
    omega

end Potential

/-- With no new caller, every interleaving of the other events ends: from a reachable state with
`|pq|` requests in the queue and `callers` calls of `WaitAcquire` so far, every run of
hand-offs, cancellations, removals, `done`s and rounds of `privateRelease` is at most
`2·|pq| + 4·callers + 1` steps long. -/
theorem run_length_le {n : Int} {s s' : Prioritized} (reach : Reachable n s) {es : List Event}
    (h : run s es = some s') (noArrivals : ∀ e ∈ es, e.arrival = false) :
    es.length ≤ 2 * s.pq.len + 4 * s.callers + 1 :=
  (run_length_le_potential reach h noArrivals).trans (potential_le s)

/-- The three steps after the tied waiters queue: at most `2·3 + 4·4 + 1` steps. -/
theorem run_length_le_tied :
    (Reachable 1 tiedState ∧ run tiedState tiedSecondSteps = some tiedSecond ∧
        ∀ e ∈ tiedSecondSteps, e.arrival = false) ∧
      tiedSecondSteps.length ≤ 2 * tiedState.pq.len + 4 * tiedState.callers + 1 :=
  have reach : Reachable 1 tiedState := ⟨tiedWaiters, rfl⟩
  ⟨⟨reach, rfl, by decide⟩, run_length_le reach rfl (by decide)⟩

/-- The semaphore never deadlocks and never leaks a slot: in a reachable state of a semaphore of
capacity at least one where no event can happen but a new call or a cancellation, every caller
has returned from `WaitAcquire` with an error or from its `done`, `used = 0`, and the queue is
empty.  With `run_length_le`, every interleaving without new calls and cancellations that runs
as long as it can ends there. -/
theorem stuck_settled {n : Int} (cap : 1 ≤ n) {s : Prioritized} (reach : Reachable n s)
    (stuck : ∀ e, e.arrival = false → e.cancellation = false → step s e = none) :
    (∀ t, (s.phase t).active = false) ∧ s.used = 0 ∧ s.pq.len = 0 := by
  have inv := Invariant.of_reachable reach
  have flow := Flow.of_reachable reach
  have inactive : ∀ t, (s.phase t).active = false := fun t => by
    by_contra active
    obtain ⟨e, arrival, cancellation, enabled⟩ :=
      flow.progress inv (reach.capacity ▸ cap) (Bool.not_eq_false _ ▸ active)
    simp [stuck e arrival cancellation] at enabled
  exact ⟨inactive, flow.settled inv inactive⟩

/-- With no caller active and no hand-off in flight, no event but a new call or a cancellation
can happen. -/
theorem stuck_of_inactive {s : Prioritized} (inactive : ∀ t, (s.phase t).active = false)
    (noReady : s.ready = none) :
    ∀ e, e.arrival = false → e.cancellation = false → step s e = none := by
  intro e arrival cancellation
  have phase : ∀ t, s.phase t = .idle ∨ s.phase t = .failed ∨ s.phase t = .released := by
    intro t
    have := inactive t
    revert this
    cases s.phase t <;> simp [Phase.active]
  cases e with
  | waitAcquire w => cases arrival
  | cancel t => cases cancellation
  | receive t => simp [step, receive, noReady]
  | remove t => rcases phase t with p | p | p <;> simp [step, removeCanceled, p]
  | done t => rcases phase t with p | p | p <;> simp [step, done, p]
  | release t => rcases phase t with p | p | p <;> simp [step, privateRelease, p]

/-- Caller `0` takes the only slot, caller `1` queues behind it, `0`'s `done` hands the slot on,
and `1` takes it and gives it back. -/
def handedOn : List Event :=
  [.waitAcquire 1, .waitAcquire 2, .done 0, .release 0, .receive 1, .done 1, .release 1]

/-- The state `handedOn` reaches. -/
def handedOnState : Prioritized := (run (newPrioritized 1) handedOn).getD (newPrioritized 1)

/-- After `handedOn` no caller is active: callers past the second never called. -/
theorem handedOnState_inactive : ∀ t, (handedOnState.phase t).active = false := by
  have reach : Reachable 1 handedOnState := ⟨handedOn, rfl⟩
  intro t
  by_cases idle : handedOnState.phase t = .idle
  · rw [idle]; rfl
  · have lt : t < 2 := (Invariant.of_reachable reach).lt_callers idle
    obtain rfl | rfl : t = 0 ∨ t = 1 := by omega
    all_goals decide

theorem stuck_settled_handedOn :
    (1 ≤ (1 : Int) ∧ Reachable 1 handedOnState ∧
        ∀ e, e.arrival = false → e.cancellation = false → step handedOnState e = none) ∧
      (∀ t, (handedOnState.phase t).active = false) ∧ handedOnState.used = 0 ∧
        handedOnState.pq.len = 0 :=
  have reach : Reachable 1 handedOnState := ⟨handedOn, rfl⟩
  have stuck := stuck_of_inactive handedOnState_inactive (by decide)
  ⟨⟨le_rfl, reach, stuck⟩, stuck_settled le_rfl reach stuck⟩

end Siso.Semaphore
