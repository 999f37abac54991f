import Siso.Semaphore.Prioritized

/-!
# The invariant of the priority semaphore

Every reachable state of a `Prioritized` satisfies `Invariant`, whatever the interleaving of
acquisitions, cancellations and releases.  It says two things.

The queue: `pq` is in heap order by weight, holds distinct callers, and holds every request
that is still `stateWaiting`; a canceled request may linger in it until its caller or a release
takes it out.

The slots: `used` is the number of callers that own a slot, counting a release whose hand-off
is in flight as still owning its slot, and a non-empty queue means that every slot is in use.
For a capacity `c ≥ 0` the bound is `c`; a negative capacity hands out no slot at all, so the
bound is `max c 0`.
-/

namespace Siso.Semaphore

open Function

theorem countP_range_update {α : Type} (p : α → Bool) (f : Nat → α) {t n : Nat} (ht : t < n)
    (v : α) :
    (List.range n).countP (fun k => p (update f t v k)) + (if p (f t) then 1 else 0) =
      (List.range n).countP (fun k => p (f k)) + (if p v then 1 else 0) := by
  induction n with
  | zero => omega
  | succ n ih =>
    simp only [List.range_succ, List.countP_append, List.countP_singleton]
    rcases Nat.lt_succ_iff_lt_or_eq.1 ht with lt | rfl
    · rw [update_noteq (by omega)]
      have := ih lt
      omega
    · have same : (List.range t).countP (fun k => p (update f t v k)) =
          (List.range t).countP (fun k => p (f k)) :=
        List.countP_congr fun k hk => by rw [update_noteq (by simp at hk; omega)]
      simp only [update_same, same]
      split <;> split <;> omega

theorem countP_range_succ_update {α : Type} (p : α → Bool) (f : Nat → α) (n : Nat) (v : α) :
    (List.range (n + 1)).countP (fun k => p (update f n v k)) =
      (List.range n).countP (fun k => p (f k)) + (if p v then 1 else 0) := by
  simp only [List.range_succ, List.countP_append, List.countP_singleton, update_same]
  congr 1
  exact List.countP_congr fun k hk => by rw [update_noteq (by simp at hk; omega)]

/-- Heap order by weight only reads the weights of the elements in the heap. -/
theorem ordered_update_weight {pq : Slice Nat} {weight : Nat → Int} {t : Nat} (w : Int)
    (fresh : ∀ r ∈ pq.toList, r < t) :
    Heap.Ordered (update weight t w) pq pq.len ↔ Heap.Ordered weight pq pq.len := by
  have same : ∀ c < pq.len, update weight t w (pq.get c) = weight (pq.get c) := fun c hc =>
    update_noteq (Nat.ne_of_lt (fresh _ (Slice.mem_toList.2 ⟨c, hc, rfl⟩))) _ _
  refine forall₂_congr fun c hc => ?_
  rw [same c hc, same _ (by omega)]

/-- A value read through an update at `t` that differs from the value written there was not
written. -/
theorem eq_of_update_eq {β : Type} {f : Nat → β} {t u : Nat} {v p : β}
    (h : update f t v u = p) (hv : v ≠ p) : u ≠ t ∧ f u = p := by
  by_cases hu : u = t
  · subst hu; simp only [update_same] at h; exact absurd h hv
  · exact ⟨hu, by rwa [update_noteq hu] at h⟩

theorem countP_update_eq (f : Nat → Phase) {t n : Nat} (ht : t < n) {v : Phase}
    (same : (f t).ownsSlot = v.ownsSlot) :
    (List.range n).countP (fun k => (update f t v k).ownsSlot) =
      (List.range n).countP (fun k => (f k).ownsSlot) := by
  have := countP_range_update Phase.ownsSlot f ht v
  rw [same] at this
  omega

/-- Taking `x` out of a list without duplicates leaves exactly the other elements. -/
theorem mem_iff_of_perm_cons {l l' : List Nat} {x : Nat} (perm : (x :: l').Perm l)
    (nodup : l.Nodup) : ∀ r, r ∈ l' ↔ r ∈ l ∧ r ≠ x := by
  have nd := perm.nodup_iff.2 nodup
  intro r
  rw [← perm.mem_iff, List.mem_cons]
  constructor
  · rintro hr
    exact ⟨.inr hr, fun hx => (List.nodup_cons.1 nd).1 (hx ▸ hr)⟩
  · rintro ⟨hr | hr, ne⟩
    · exact absurd hr ne
    · exact hr

/-- What a release round's `Pop` does to a queue in heap order without duplicates. -/
theorem pop_spec {pq : Slice Nat} {weight : Nat → Int} (nonempty : 0 < pq.len)
    (nodup : pq.toList.Nodup) (ordered : Heap.Ordered weight pq pq.len) :
    let top := Heap.pop (Heap.byKey weight) pq
    top.1 = pq.get 0 ∧ (∀ r, r ∈ top.2.toList ↔ r ∈ pq.toList ∧ r ≠ top.1) ∧
      top.2.toList.Nodup ∧ Heap.Ordered weight top.2 top.2.len := by
  have perm := Heap.pop_perm (Heap.byKey weight) pq nonempty
  exact ⟨Heap.pop_fst _ _, mem_iff_of_perm_cons perm nodup,
    (List.nodup_cons.1 (perm.nodup_iff.2 nodup)).2, Heap.pop_ordered ordered⟩

/-- What `removeCanceled` does to a queue in heap order without duplicates. -/
theorem remove_spec {pq : Slice Nat} {weight : Nat → Int} (t : Nat)
    (nodup : pq.toList.Nodup) (ordered : Heap.Ordered weight pq pq.len) :
    let pq' := if t ∈ pq.toList then
      (Heap.remove (Heap.byKey weight) pq (pq.toList.indexOf t)).2 else pq
    (∀ r, r ∈ pq'.toList ↔ r ∈ pq.toList ∧ r ≠ t) ∧ pq'.toList.Nodup ∧
      Heap.Ordered weight pq' pq'.len ∧ pq'.len ≤ pq.len := by
  intro pq'
  by_cases mem : t ∈ pq.toList
  · have lt : pq.toList.indexOf t < pq.len := by
      rw [← Slice.length_toList]; exact List.indexOf_lt_length.2 mem
    have top : (Heap.remove (Heap.byKey weight) pq (pq.toList.indexOf t)).1 = t := by
      rw [Heap.remove_fst _ _ lt, ← Slice.toList_getElem pq _ (by rwa [Slice.length_toList])]
      exact List.getElem_indexOf _
    have perm := Heap.remove_perm (Heap.byKey weight) pq lt
    rw [top] at perm
    simp only [pq', if_pos mem]
    exact ⟨mem_iff_of_perm_cons perm nodup, (List.nodup_cons.1 (perm.nodup_iff.2 nodup)).2,
      Heap.remove_ordered ordered lt, by simp⟩
  · simp only [pq', if_neg mem]
    exact ⟨fun r => ⟨fun hr => ⟨hr, fun h => mem (h ▸ hr)⟩, And.left⟩, nodup, ordered,
      le_rfl⟩

/-- What every reachable state satisfies. -/
structure Invariant (s : Prioritized) : Prop where
  idle_beyond : ∀ t, s.callers ≤ t → s.phase t = .idle
  mem_lt : ∀ r ∈ s.pq.toList, r < s.callers
  nodup : s.pq.toList.Nodup
  ordered : Heap.Ordered s.weight s.pq s.pq.len
  waiting_mem : ∀ r, Waiting s r → r ∈ s.pq.toList
  canceling_state : ∀ t, s.phase t = .canceling → s.state t = some .canceled
  failed_state : ∀ t, s.phase t = .failed → s.state t = some .canceled
  ready_releaser : ∀ ho, s.ready = some ho → s.phase ho.releaser = .releasing ho.tid
  used_eq : s.used = holders s
  used_le : s.used ≤ max s.capacity 0
  queue_full : 0 < s.pq.len → s.used = max s.capacity 0

namespace Invariant

variable {s s' : Prioritized}

theorem lt_callers (inv : Invariant s) {t : Nat} (active : s.phase t ≠ .idle) : t < s.callers :=
  Nat.lt_of_not_le fun h => active (inv.idle_beyond t h)

theorem ready_ne (inv : Invariant s) {ho : Handoff} (hready : s.ready = some ho) {t : Nat}
    (notReleasing : ∀ tid, s.phase t ≠ .releasing tid) : ho.releaser ≠ t := by
  rintro rfl
  exact notReleasing _ (inv.ready_releaser ho hready)

theorem init (n : Int) : Invariant (newPrioritized n) where
  idle_beyond _ _ := rfl
  mem_lt _ h := by simp [newPrioritized, Slice.toList] at h
  nodup := by simp [newPrioritized, Slice.toList]
  ordered _ h := absurd h (Nat.not_lt_zero _)
  waiting_mem _ h := by simp [Waiting, newPrioritized] at h
  canceling_state _ h := by simp [newPrioritized] at h
  failed_state _ h := by simp [newPrioritized] at h
  ready_releaser _ h := by simp [newPrioritized] at h
  used_eq := rfl
  used_le := le_max_right _ _
  queue_full h := absurd h (Nat.lt_irrefl 0)

/-- A step that moves only caller `t`, active and not releasing, to a phase that is neither
`canceling` nor `failed` and owns a slot exactly when the old one did keeps the invariant,
whatever it does with `mu`. -/
theorem setPhase (inv : Invariant s) {t : Nat} {v : Phase} (m : Bool)
    (active : s.phase t ≠ .idle) (notReleasing : ∀ tid, s.phase t ≠ .releasing tid)
    (notCanceling : v ≠ .canceling) (notFailed : v ≠ .failed)
    (owns : (s.phase t).ownsSlot = v.ownsSlot) :
    Invariant { s with phase := update s.phase t v, mu := m } := by
  have lt := inv.lt_callers active
  refine ⟨fun u hu => ?_, inv.mem_lt, inv.nodup, inv.ordered, inv.waiting_mem,
    fun u hu => ?_, fun u hu => ?_, fun ho hr => ?_, ?_, inv.used_le, inv.queue_full⟩ <;>
    dsimp only at *
  · rw [update_noteq (by omega)]; exact inv.idle_beyond u hu
  · exact inv.canceling_state u (eq_of_update_eq hu notCanceling).2
  · exact inv.failed_state u (eq_of_update_eq hu notFailed).2
  · rw [update_noteq (inv.ready_ne hr notReleasing)]; exact inv.ready_releaser ho hr
  · rw [holders, countP_update_eq s.phase lt owns]; exact inv.used_eq

/-- The section of `WaitAcquire` under `mu` keeps the invariant. -/
theorem waitAcquire (inv : Invariant s) {w : Int} (h : Semaphore.waitAcquire s w = some s') :
    Invariant s' := by
  have idle : s.phase s.callers = .idle := inv.idle_beyond _ le_rfl
  have releaserNe : ∀ ho, s.ready = some ho → ho.releaser ≠ s.callers := fun ho hr =>
    inv.ready_ne hr (by simp [idle])
  obtain ⟨-, ⟨free, rfl⟩ | ⟨full, rfl⟩⟩ := waitAcquire_eq_some h
  · refine ⟨fun t ht => ?_, fun r hr => Nat.lt_succ_of_lt (inv.mem_lt r hr), inv.nodup,
      (ordered_update_weight w inv.mem_lt).2 inv.ordered, inv.waiting_mem,
      fun t ht => ?_, fun t ht => ?_, fun ho hr => ?_, ?_, ?_, fun hq => ?_⟩ <;> dsimp only at *
    · rw [update_noteq (by omega)]; exact inv.idle_beyond t (by omega)
    · exact inv.canceling_state t (eq_of_update_eq ht (by simp)).2
    · exact inv.failed_state t (eq_of_update_eq ht (by simp)).2
    · rw [update_noteq (releaserNe ho hr)]; exact inv.ready_releaser ho hr
    · rw [holders, countP_range_succ_update, inv.used_eq]
      simp [holders]
    · have := inv.used_le; omega
    · have := inv.queue_full hq; omega
  · have pushPerm := Heap.push_perm (Heap.byKey (update s.weight s.callers w)) s.pq s.callers
    have fresh : s.callers ∉ s.pq.toList := fun hm => Nat.lt_irrefl _ (inv.mem_lt _ hm)
    refine ⟨fun t ht => ?_, fun r hr => ?_, ?_, ?_, fun r hr => ?_,
      fun t ht => ?_, fun t ht => ?_, fun ho hr => ?_, ?_, inv.used_le, fun _ => ?_⟩ <;>
      dsimp only at *
    · rw [update_noteq (by omega)]; exact inv.idle_beyond t (by omega)
    · rcases List.mem_append.1 (pushPerm.subset hr) with hr | hr
      · exact Nat.lt_succ_of_lt (inv.mem_lt r hr)
      · simp only [List.mem_singleton] at hr; omega
    · exact pushPerm.nodup_iff.2 (List.nodup_append.2 ⟨inv.nodup, List.nodup_singleton _,
        fun a ha hb => by simp only [List.mem_singleton] at hb; subst hb; exact fresh ha⟩)
    · simpa using Heap.push_ordered ((ordered_update_weight w inv.mem_lt).2 inv.ordered) _
    · refine pushPerm.symm.subset (List.mem_append.2 ?_)
      rcases eq_or_ne r s.callers with rfl | ne
      · exact .inr (List.mem_singleton_self _)
      · exact .inl (inv.waiting_mem r (by simpa [Waiting, update_noteq ne] using hr))
    · obtain ⟨ne, ht⟩ := eq_of_update_eq ht (by simp)
      simpa [update_noteq ne] using inv.canceling_state t ht
    · obtain ⟨ne, ht⟩ := eq_of_update_eq ht (by simp)
      simpa [update_noteq ne] using inv.failed_state t ht
    · rw [update_noteq (releaserNe ho hr)]; exact inv.ready_releaser ho hr
    · rw [holders, countP_range_succ_update, inv.used_eq]
      simp [holders]
    · have := inv.used_le
      have := inv.used_eq
      omega

/-- The meeting of a release's send and its receiver keeps the invariant: the slot passes
from the releaser to the receiver. -/
theorem receive (inv : Invariant s) {t : Nat} (h : Semaphore.receive s t = some s') :
    Invariant s' := by
  obtain ⟨ho, hready, rfl, waiting, rfl⟩ := receive_eq_some h
  have relPhase := inv.ready_releaser ho hready
  have ne : ho.req ≠ ho.releaser := fun eq => by rcases waiting with w | w <;> simp_all
  have reqLt := inv.lt_callers (t := ho.req) (by rcases waiting with w | w <;> simp [w])
  have relLt := inv.lt_callers (t := ho.releaser) (by simp [relPhase])
  refine ⟨fun u hu => ?_, inv.mem_lt, inv.nodup, inv.ordered, inv.waiting_mem,
    fun u hu => ?_, fun u hu => ?_, fun _ hr => Option.noConfusion hr, ?_, inv.used_le,
    inv.queue_full⟩ <;> dsimp only at *
  · rw [update_noteq (by omega), update_noteq (by omega)]; exact inv.idle_beyond u hu
  · obtain ⟨-, hu⟩ := eq_of_update_eq hu (by simp)
    exact inv.canceling_state u (eq_of_update_eq hu (by simp)).2
  · obtain ⟨-, hu⟩ := eq_of_update_eq hu (by simp)
    exact inv.failed_state u (eq_of_update_eq hu (by simp)).2
  · have toReceiver := countP_range_update Phase.ownsSlot
      (update s.phase ho.releaser .released) reqLt (.holding ho.tid)
    have fromReleaser := countP_range_update Phase.ownsSlot s.phase relLt .released
    rw [update_noteq ne] at toReceiver
    have notOwned : (s.phase ho.req).ownsSlot = false := by
      rcases waiting with w | w <;> simp [w]
    simp only [notOwned, relPhase, Phase.ownsSlot_holding, Phase.ownsSlot_releasing,
      Phase.ownsSlot_released] at toReceiver fromReleaser
    simp only [holders, inv.used_eq]
    omega

/-- The compare-and-swap of a canceled waiter keeps the invariant, whether it wins or loses the
race with a release. -/
theorem cancel (inv : Invariant s) {t : Nat} (h : Semaphore.cancel s t = some s') :
    Invariant s' := by
  obtain ⟨queued, ⟨-, rfl⟩ | ⟨-, rfl⟩⟩ := cancel_eq_some h
  · -- the race won: the request is canceled
    have lt := inv.lt_callers (t := t) (by simp [queued])
    refine ⟨fun u hu => ?_, inv.mem_lt, inv.nodup, inv.ordered, fun r hr => ?_,
      fun u hu => ?_, fun u hu => ?_, fun ho hr => ?_, ?_, inv.used_le,
      inv.queue_full⟩ <;> dsimp only at *
    · rw [update_noteq (by omega)]; exact inv.idle_beyond u (by omega)
    · obtain ⟨ne, hr⟩ := eq_of_update_eq hr (by simp)
      exact inv.waiting_mem r hr
    · rcases eq_or_ne u t with rfl | ne
      · simp
      · rw [update_noteq ne] at hu ⊢; exact inv.canceling_state u hu
    · obtain ⟨ne, hu⟩ := eq_of_update_eq hu (by simp)
      rw [update_noteq ne]; exact inv.failed_state u hu
    · rw [update_noteq (inv.ready_ne hr (by simp [queued]))]; exact inv.ready_releaser ho hr
    · rw [holders, countP_update_eq s.phase lt (by simp [queued])]
      exact inv.used_eq
  · exact inv.setPhase s.mu (by simp [queued]) (by simp [queued]) (by simp) (by simp)
      (by simp [queued])

/-- Removing a canceled request keeps the invariant. -/
theorem removeCanceled (inv : Invariant s) {t : Nat}
    (h : Semaphore.removeCanceled s t = some s') : Invariant s' := by
  obtain ⟨-, canceling, rfl⟩ := removeCanceled_eq_some h
  have canceled := inv.canceling_state t canceling
  have lt := inv.lt_callers (t := t) (by simp [canceling])
  obtain ⟨mem, nodup, ordered, shorter⟩ := remove_spec t inv.nodup inv.ordered
  refine ⟨fun u hu => ?_, fun r hr => inv.mem_lt r ((mem r).1 hr).1, nodup, ordered,
    fun r hr => (mem r).2 ⟨inv.waiting_mem r hr, ?_⟩, fun u hu => ?_, fun u hu => ?_,
    fun ho hr => ?_, ?_, inv.used_le, fun hq => ?_⟩ <;> dsimp only at *
  · rw [update_noteq (by omega)]; exact inv.idle_beyond u hu
  · rintro rfl; simp [Waiting, canceled] at hr
  · exact inv.canceling_state u (eq_of_update_eq hu (by simp)).2
  · rcases eq_or_ne u t with rfl | ne
    · exact canceled
    · rw [update_noteq ne] at hu; exact inv.failed_state u hu
  · rw [update_noteq (inv.ready_ne hr (by simp [canceling]))]; exact inv.ready_releaser ho hr
  · rw [holders, countP_update_eq s.phase lt (by simp [canceling])]
    exact inv.used_eq
  · exact inv.queue_full (by omega)

/-- Entering `privateRelease` keeps the invariant. -/
theorem done (inv : Invariant s) {t : Nat} (h : Semaphore.done s t = some s') : Invariant s' := by
  obtain ⟨tid, holding, -, rfl⟩ := done_eq_some h
  exact inv.setPhase true (by simp [holding]) (by simp [holding]) (by simp) (by simp)
    (by simp [holding])

/-- A round of the loop of `privateRelease` keeps the invariant: it gives the slot back, hands
it to the request it pops, or drops a canceled request. -/
theorem privateRelease (inv : Invariant s) {t : Nat}
    (h : Semaphore.privateRelease s t = some s') : Invariant s' := by
  obtain ⟨tid, releasing, noReady, ⟨empty, rfl⟩ | ⟨nonempty, waiting, rfl⟩ |
    ⟨nonempty, notWaiting, rfl⟩⟩ := privateRelease_eq_some h
  · -- the slot given back
    have lt := inv.lt_callers (t := t) (by simp [releasing])
    refine ⟨fun u hu => ?_, inv.mem_lt, inv.nodup, inv.ordered, inv.waiting_mem,
      fun u hu => ?_, fun u hu => ?_, fun ho hr => ?_, ?_, ?_, fun hq => ?_⟩ <;> dsimp only at *
    · rw [update_noteq (by omega)]; exact inv.idle_beyond u hu
    · exact inv.canceling_state u (eq_of_update_eq hu (by simp)).2
    · exact inv.failed_state u (eq_of_update_eq hu (by simp)).2
    · simp [noReady] at hr
    · have count := countP_range_update Phase.ownsSlot s.phase lt .released
      simp only [releasing, Phase.ownsSlot_releasing, Phase.ownsSlot_released, if_true,
        Bool.false_eq_true, if_false] at count
      have := inv.used_eq
      rw [holders] at this ⊢
      dsimp only
      omega
    · have := inv.used_le; omega
    · omega
  · -- the slot handed to the top request, which still waits
    obtain ⟨-, mem, nodup, ordered⟩ := pop_spec nonempty inv.nodup inv.ordered
    have shorter := Heap.pop_len (Heap.byKey s.weight) s.pq
    refine ⟨inv.idle_beyond, fun r hr => inv.mem_lt r ((mem r).1 hr).1, nodup, ordered,
      fun r hr => ?_, fun u hu => ?_, fun u hu => ?_, fun ho hr => ?_, inv.used_eq,
      inv.used_le, fun hq => ?_⟩ <;> dsimp only at *
    · obtain ⟨ne, hr⟩ := eq_of_update_eq hr (by simp)
      exact (mem r).2 ⟨inv.waiting_mem r hr, ne⟩
    · have := inv.canceling_state u hu
      rw [update_noteq fun eq => by simp [eq, waiting] at this]; exact this
    · have := inv.failed_state u hu
      rw [update_noteq fun eq => by simp [eq, waiting] at this]; exact this
    · cases hr; exact releasing
    · exact inv.queue_full (by omega)
  · -- a request no longer waiting dropped
    obtain ⟨-, mem, nodup, ordered⟩ := pop_spec nonempty inv.nodup inv.ordered
    have shorter := Heap.pop_len (Heap.byKey s.weight) s.pq
    refine ⟨inv.idle_beyond, fun r hr => inv.mem_lt r ((mem r).1 hr).1, nodup, ordered,
      fun r hr => (mem r).2 ⟨inv.waiting_mem r hr, fun eq => notWaiting (eq ▸ hr)⟩,
      inv.canceling_state, inv.failed_state, inv.ready_releaser, inv.used_eq, inv.used_le,
      fun hq => inv.queue_full (by dsimp only at hq; omega)⟩

/-- Every step keeps the invariant. -/
theorem step (inv : Invariant s) {e : Event} (h : Semaphore.step s e = some s') :
    Invariant s' := by
  cases e with
  | waitAcquire w => exact inv.waitAcquire h
  | receive t => exact inv.receive h
  | cancel t => exact inv.cancel h
  | remove t => exact inv.removeCanceled h
  | done t => exact inv.done h
  | release t => exact inv.privateRelease h

/-- Every reachable state satisfies the invariant. -/
theorem of_reachable {n : Int} (reach : Reachable n s) : Invariant s :=
  Reachable.induction Invariant (init n) (fun _ _ _ _ inv h => inv.step h) reach

end Invariant

end Siso.Semaphore
