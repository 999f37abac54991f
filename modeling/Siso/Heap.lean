import Mathlib.Logic.Equiv.Basic
import Mathlib.Data.List.Nodup
import Mathlib.Data.List.Range

/-!
# Go's `container/heap`

The wait queue of `semaphore.Prioritized` is a `priorityQueue`, a slice of requests that the
standard library's `container/heap` keeps in heap order through the queue's `Less` and
`Swap`.  A slice is modelled as its backing array and its length, and `up`, `down`, `Push`,
`Pop` and `Remove` as the library writes them, over an arbitrary `Less`.

The loops of `up` and `down` run on fuel: `up` from `j` stops within `j` rounds and `down`
from `i` within `n - i`, and that is what the callers pass.

For a `Less` that compares integer keys, as `priorityQueue.Less` compares weights, the
second half proves that every operation keeps the first `n` elements in heap order and keeps
the elements themselves, and that `Pop` returns an element of greatest key.  The sift
invariants follow the usual hole argument: every parent and child pair is in order except
those at one position, and the loop moves that position towards the root or the leaves.
-/

namespace Siso

/-- A Go slice: its backing array and its length. -/
structure Slice (α : Type) where
  get : Nat → α
  len : Nat

namespace Slice

variable {α : Type}

/-- `pq[i], pq[j] = pq[j], pq[i]`. -/
def swap (h : Slice α) (i j : Nat) : Slice α :=
  ⟨fun k => if k = i then h.get j else if k = j then h.get i else h.get k, h.len⟩

/-- `append(pq, x)`. -/
def append (h : Slice α) (x : α) : Slice α :=
  ⟨fun k => if k = h.len then x else h.get k, h.len + 1⟩

/-- `old[0 : n-1]`: the slice without its last element. -/
def dropLast (h : Slice α) : Slice α := ⟨h.get, h.len - 1⟩

/-- The elements of the slice, in order. -/
def toList (h : Slice α) : List α := (List.range h.len).map h.get

@[simp] theorem swap_len (h : Slice α) (i j : Nat) : (h.swap i j).len = h.len := rfl

@[simp] theorem append_len (h : Slice α) (x : α) : (h.append x).len = h.len + 1 := rfl

@[simp] theorem dropLast_len (h : Slice α) : h.dropLast.len = h.len - 1 := rfl

theorem swap_get (h : Slice α) (i j k : Nat) :
    (h.swap i j).get k = if k = i then h.get j else if k = j then h.get i else h.get k := rfl

@[simp] theorem dropLast_get (h : Slice α) (k : Nat) : h.dropLast.get k = h.get k := rfl

@[simp] theorem swap_get_left (h : Slice α) (i j : Nat) : (h.swap i j).get i = h.get j := by
  simp [swap_get]

@[simp] theorem swap_get_right (h : Slice α) (i j : Nat) : (h.swap i j).get j = h.get i := by
  simp only [swap_get]; split <;> simp_all

theorem append_get_of_lt (h : Slice α) (x : α) {k : Nat} (hk : k < h.len) :
    (h.append x).get k = h.get k := by
  simp [append, Nat.ne_of_lt hk]

@[simp] theorem append_get_len (h : Slice α) (x : α) : (h.append x).get h.len = x := by
  simp [append]

theorem swap_get_of_ne (h : Slice α) {i j k : Nat} (hi : k ≠ i) (hj : k ≠ j) :
    (h.swap i j).get k = h.get k := by
  simp [swap_get, hi, hj]

theorem length_toList (h : Slice α) : h.toList.length = h.len := by simp [toList]

theorem mem_toList {h : Slice α} {x : α} : x ∈ h.toList ↔ ∃ k < h.len, h.get k = x := by
  simp [toList]

theorem toList_getElem (h : Slice α) (k : Nat) (hk : k < h.toList.length) :
    h.toList[k] = h.get k := by simp [toList]

/-- Swapping two positions of the slice permutes its elements. -/
theorem toList_swap_perm (h : Slice α) {i j : Nat} (hi : i < h.len) (hj : j < h.len) :
    (h.swap i j).toList.Perm h.toList := by
  have swapped : (h.swap i j).toList = ((List.range h.len).map (Equiv.swap i j)).map h.get := by
    simp only [toList, List.map_map, swap_len]
    congr 1
    funext k
    simp [swap_get, Equiv.swap_apply_def]
    split_ifs <;> simp_all
  have rangePerm : ((List.range h.len).map (Equiv.swap i j)).Perm (List.range h.len) := by
    refine (List.perm_ext_iff_of_nodup ((List.nodup_range _).map (Equiv.injective _))
      (List.nodup_range _)).2 fun k => ?_
    simp only [List.mem_map, List.mem_range]
    constructor
    · rintro ⟨m, hm, rfl⟩
      rw [Equiv.swap_apply_def]
      split_ifs <;> omega
    · intro hk
      refine ⟨Equiv.swap i j k, ?_, Equiv.swap_apply_self _ _ _⟩
      rw [Equiv.swap_apply_def]
      split_ifs <;> omega
  rw [swapped]
  exact rangePerm.map _

theorem toList_append (h : Slice α) (x : α) : (h.append x).toList = h.toList ++ [x] := by
  simp only [toList, append_len, List.range_succ, List.map_append, List.map_cons,
    List.map_nil, append, if_true, List.append_cancel_right_eq]
  apply List.map_congr_left
  intro k hk
  simp [Nat.ne_of_lt (List.mem_range.1 hk)]

theorem toList_of_pos (h : Slice α) (hlen : 0 < h.len) :
    h.toList = h.dropLast.toList ++ [h.get (h.len - 1)] := by
  obtain ⟨n, hn⟩ : ∃ n, h.len = n + 1 := ⟨h.len - 1, by omega⟩
  simp [toList, hn, List.range_succ]

end Slice

namespace Heap

variable {α : Type} (less : α → α → Bool)

/-- `h.Less(i, j)`: the queue's `Less` on the elements at two positions. -/
def lessAt (h : Slice α) (i j : Nat) : Bool := less (h.get i) (h.get j)

/-- `up(h, j)` on `fuel` rounds: swap the element at `j` with its parent `(j - 1) / 2` while
it is less than the parent. -/
def up : Nat → Slice α → Nat → Slice α
  | 0, h, _ => h
  | fuel + 1, h, j =>
    if (j - 1) / 2 = j ∨ lessAt less h j ((j - 1) / 2) = false then h
    else up fuel (h.swap ((j - 1) / 2) j) ((j - 1) / 2)

/-- The child `down` compares with at `i`: the left child `2 * i + 1`, or the right one when it
is within `n` and less than the left one. -/
def child (h : Slice α) (i n : Nat) : Nat :=
  if 2 * i + 2 < n ∧ lessAt less h (2 * i + 2) (2 * i + 1) = true then 2 * i + 2 else 2 * i + 1

/-- The loop of `down(h, i0, n)` on `fuel` rounds; returns the slice and the final position. -/
def downLoop : Nat → Slice α → Nat → Nat → Slice α × Nat
  | 0, h, i, _ => (h, i)
  | fuel + 1, h, i, n =>
    if n ≤ 2 * i + 1 then (h, i)
    else if lessAt less h (child less h i n) i = false then (h, i)
    else downLoop fuel (h.swap i (child less h i n)) (child less h i n) n

/-- `down(h, i0, n)`: sift the element at `i0` down within the first `n` elements, and report
whether it moved. -/
def down (h : Slice α) (i0 n : Nat) : Slice α × Bool :=
  let r := downLoop less n h i0 n
  (r.1, decide (i0 < r.2))

/-- `heap.Push(h, x)`: append, then `up` from the new last position. -/
def push (h : Slice α) (x : α) : Slice α := up less h.len (h.append x) h.len

/-- `priorityQueue.Pop`: take the last element off the slice. -/
def popLast (h : Slice α) : α × Slice α := (h.get (h.len - 1), h.dropLast)

/-- `heap.Pop(h)` on a non-empty heap: swap the first and the last element, `down` from the
first within the others, and take the last off. -/
def pop (h : Slice α) : α × Slice α :=
  popLast (down less (h.swap 0 (h.len - 1)) 0 (h.len - 1)).1

/-- The body of `heap.Remove(h, i)` before its final `h.Pop()`: swap the element at `i` with
the last one and restore the order at `i` by `down`, or else by `up`. -/
def removeSift (h : Slice α) (i : Nat) : Slice α :=
  let n := h.len - 1
  if n ≠ i then
    let r := down less (h.swap i n) i n
    if r.2 then r.1 else up less i r.1 i
  else h

/-- `heap.Remove(h, i)`. -/
def remove (h : Slice α) (i : Nat) : α × Slice α := popLast (removeSift less h i)

@[simp] theorem up_len (fuel : Nat) (h : Slice α) (j : Nat) : (up less fuel h j).len = h.len := by
  induction fuel generalizing h j with
  | zero => rfl
  | succ fuel ih => unfold up; split <;> simp [ih]

@[simp] theorem downLoop_len (fuel : Nat) (h : Slice α) (i n : Nat) :
    (downLoop less fuel h i n).1.len = h.len := by
  induction fuel generalizing h i with
  | zero => rfl
  | succ fuel ih => unfold downLoop; split <;> [rfl; split <;> simp [ih]]

theorem child_bounds (h : Slice α) (i n : Nat) :
    child less h i n = 2 * i + 1 ∨ (child less h i n = 2 * i + 2 ∧ 2 * i + 2 < n) := by
  unfold child; split <;> simp_all

theorem downLoop_ge (fuel : Nat) (h : Slice α) (i n : Nat) :
    i ≤ (downLoop less fuel h i n).2 := by
  induction fuel generalizing h i with
  | zero => exact le_refl _
  | succ fuel ih =>
    unfold downLoop
    split
    · exact le_refl _
    · split
      · exact le_refl _
      · have := ih (h.swap i (child less h i n)) (child less h i n)
        rcases child_bounds less h i n with hc | ⟨hc, _⟩ <;> omega

/-- `up` from `j` leaves every position after `j` alone. -/
theorem up_get_of_lt (fuel : Nat) (h : Slice α) {j m : Nat} (hm : j < m) :
    (up less fuel h j).get m = h.get m := by
  induction fuel generalizing h j with
  | zero => rfl
  | succ fuel ih =>
    unfold up
    split
    · rfl
    · rw [ih _ (by omega), Slice.swap_get_of_ne _ (by omega) (by omega)]

/-- `down` within the first `n` leaves every position from `n` on alone. -/
theorem downLoop_get_of_le (fuel : Nat) (h : Slice α) {i n m : Nat} (hm : n ≤ m) :
    (downLoop less fuel h i n).1.get m = h.get m := by
  induction fuel generalizing h i with
  | zero => rfl
  | succ fuel ih =>
    unfold downLoop
    split
    · rfl
    · split
      · rfl
      · rename_i hn _
        rw [ih]
        rcases child_bounds less h i n with hc | ⟨hc, _⟩ <;>
          exact Slice.swap_get_of_ne _ (by omega) (by omega)

theorem up_perm (fuel : Nat) (h : Slice α) {j : Nat} (hj : j < h.len) :
    (up less fuel h j).toList.Perm h.toList := by
  induction fuel generalizing h j with
  | zero => exact List.Perm.refl _
  | succ fuel ih =>
    unfold up
    split
    · exact List.Perm.refl _
    · exact (ih _ (by simp; omega)).trans (Slice.toList_swap_perm _ (by omega) hj)

theorem downLoop_perm (fuel : Nat) (h : Slice α) {i n : Nat} (hn : n ≤ h.len) :
    (downLoop less fuel h i n).1.toList.Perm h.toList := by
  induction fuel generalizing h i with
  | zero => exact List.Perm.refl _
  | succ fuel ih =>
    unfold downLoop
    split
    · exact List.Perm.refl _
    · split
      · exact List.Perm.refl _
      · refine (ih _ (by simpa using hn)).trans (Slice.toList_swap_perm _ ?_ ?_) <;>
          rcases child_bounds less h i n with hc | ⟨hc, _⟩ <;> omega

section Order

variable (key : α → Int)

/-- `priorityQueue.Less`: the element of higher key comes first. -/
def byKey (a b : α) : Bool := decide (key b < key a)

/-- The first `n` elements are in heap order: none has a higher key than its parent. -/
def Ordered (h : Slice α) (n : Nat) : Prop :=
  ∀ c < n, key (h.get c) ≤ key (h.get ((c - 1) / 2))

/-- Heap order around a hole at `k`: the pairs that do not touch `k` are in order, and the
parent of `k` is above the children of `k`. -/
structure HoleOrder (h : Slice α) (n k : Nat) : Prop where
  except : ∀ c < n, c ≠ k → (c - 1) / 2 ≠ k → key (h.get c) ≤ key (h.get ((c - 1) / 2))
  grand : 0 < k → ∀ c < n, 0 < c → (c - 1) / 2 = k →
    key (h.get c) ≤ key (h.get ((k - 1) / 2))

/-- The order `up` keeps at `j`: a hole whose children are below it. -/
structure UpOrder (h : Slice α) (n j : Nat) extends HoleOrder key h n j : Prop where
  below : ∀ c < n, 0 < c → (c - 1) / 2 = j → key (h.get c) ≤ key (h.get j)

/-- The order `down` keeps at `i`: a hole below its parent. -/
structure DownOrder (h : Slice α) (n i : Nat) extends HoleOrder key h n i : Prop where
  above : key (h.get i) ≤ key (h.get ((i - 1) / 2))

variable {key}

@[simp] theorem byKey_eq_false {a b : α} : byKey key a b = false ↔ key a ≤ key b := by
  simp [byKey]

@[simp] theorem byKey_eq_true {a b : α} : byKey key a b = true ↔ key b < key a := by
  simp [byKey]

/-- The child `down` picks is a child within `n`, and no child is above it. -/
theorem child_spec (key : α → Int) (h : Slice α) {i n : Nat} (hn : 2 * i + 1 < n) :
    let j := child (byKey key) h i n
    (j - 1) / 2 = i ∧ 0 < j ∧ j < n ∧
      ∀ c < n, 0 < c → (c - 1) / 2 = i → key (h.get c) ≤ key (h.get j) := by
  intro j
  refine ⟨?_, ?_, ?_, fun c hc cPos hpc => ?_⟩ <;>
    try (rcases child_bounds (byKey key) h i n with hj | ⟨hj, _⟩ <;> omega)
  have hc' : c = 2 * i + 1 ∨ c = 2 * i + 2 := by omega
  simp only [j, child, lessAt, byKey_eq_true]
  split
  · rename_i right
    rcases hc' with rfl | rfl
    · exact right.2.le
    · exact le_refl _
  · rename_i left
    rcases hc' with rfl | rfl
    · exact le_refl _
    · exact not_lt.1 fun gt => left ⟨hc, gt⟩

/-- An up-order hole whose element is below its parent is no hole. -/
theorem UpOrder.ordered {h : Slice α} {n j : Nat} (o : UpOrder key h n j)
    (stop : key (h.get j) ≤ key (h.get ((j - 1) / 2))) : Ordered key h n := by
  intro c hc
  rcases eq_or_ne c j with rfl | hcj
  · exact stop
  by_cases hpc : (c - 1) / 2 = j
  · rw [hpc]; exact o.below c hc (by omega) hpc
  · exact o.except c hc hcj hpc

/-- The parent `(c - 1) / 2` of a position is at most the position, -/
theorem parent_le (c : Nat) : (c - 1) / 2 ≤ c := by omega

/-- and below it but at the root. -/
theorem parent_lt {c : Nat} (pos : 0 < c) : (c - 1) / 2 < c := by omega

/-- A round of `up`: swapping a hole with a parent it is above moves the hole to the parent. -/
theorem UpOrder.swap {h : Slice α} {n j : Nat} (o : UpOrder key h n j) (pos : 0 < j)
    (hj : j < n) (above : key (h.get ((j - 1) / 2)) < key (h.get j)) :
    UpOrder key (h.swap ((j - 1) / 2) j) n ((j - 1) / 2) := by
  set p := (j - 1) / 2 with hp
  have hpj : p < j := parent_lt pos
  have pOrd : 0 < p → key (h.get p) ≤ key (h.get ((p - 1) / 2)) := fun _ =>
    o.except p (hpj.trans hj) hpj.ne ((parent_le p).trans_lt hpj).ne
  have sibling : ∀ c < n, c ≠ j → (c - 1) / 2 = p → key (h.get c) ≤ key (h.get p) :=
    fun c hc hcj hpc => hpc ▸ o.except c hc hcj (hpc ▸ hpj.ne)
  refine ⟨⟨fun c hc hcp hpc => ?_, fun pPos c hc cPos hpc => ?_⟩, fun c hc cPos hpc => ?_⟩
  · have hcj : c ≠ j := by rintro rfl; exact hpc hp.symm
    rw [Slice.swap_get_of_ne _ hcp hcj]
    by_cases hpcj : (c - 1) / 2 = j
    · rw [hpcj, Slice.swap_get_right]
      exact o.grand pos c hc (by omega) hpcj
    · rw [Slice.swap_get_of_ne _ hpc hpcj]
      exact o.except c hc hcj hpcj
  · rw [Slice.swap_get_of_ne _ (parent_lt pPos).ne ((parent_le p).trans_lt hpj).ne]
    rcases eq_or_ne c j with rfl | hcj
    · rw [Slice.swap_get_right]
      exact pOrd pPos
    · rw [Slice.swap_get_of_ne _ (by rintro rfl; exact (parent_lt cPos).ne hpc) hcj]
      exact (sibling c hc hcj hpc).trans (pOrd pPos)
  · rw [Slice.swap_get_left]
    rcases eq_or_ne c j with rfl | hcj
    · rw [Slice.swap_get_right]
      exact above.le
    · rw [Slice.swap_get_of_ne _ (by rintro rfl; exact (parent_lt cPos).ne hpc) hcj]
      exact (sibling c hc hcj hpc).trans above.le

/-- `up` restores the heap order from an up-order hole. -/
theorem up_ordered (fuel : Nat) {h : Slice α} {n j : Nat} (o : UpOrder key h n j) (hj : j < n)
    (enough : j ≤ fuel) : Ordered key (up (byKey key) fuel h j) n := by
  induction fuel generalizing h j with
  | zero => exact o.ordered (by rw [show j = 0 by omega])
  | succ fuel ih =>
    unfold up
    split
    · rename_i stop
      refine o.ordered ?_
      rcases stop with stop | stop
      · rw [stop]
      · simpa [lessAt] using stop
    · rename_i go
      simp only [not_or, lessAt, Bool.not_eq_false, byKey_eq_true] at go
      exact ih (o.swap (by omega) hj go.2) (by omega) (by omega)

/-- A down-order hole whose children are below it is no hole. -/
theorem DownOrder.ordered {h : Slice α} {n i : Nat} (o : DownOrder key h n i)
    (stop : ∀ c < n, 0 < c → (c - 1) / 2 = i → key (h.get c) ≤ key (h.get i)) :
    Ordered key h n := by
  intro c hc
  by_cases hpc : (c - 1) / 2 = i
  · rcases Nat.eq_zero_or_pos c with rfl | cPos
    · exact le_refl _
    · rw [hpc]; exact stop c hc cPos hpc
  · rcases eq_or_ne c i with rfl | hci
    · exact o.above
    · exact o.except c hc hci hpc

/-- A round of `down`: swapping a hole with a child above it moves the hole to that child. -/
theorem HoleOrder.swap {h : Slice α} {n i : Nat} (o : HoleOrder key h n i)
    (hn : 2 * i + 1 < n) (below : key (h.get i) < key (h.get (child (byKey key) h i n))) :
    DownOrder key (h.swap i (child (byKey key) h i n)) n (child (byKey key) h i n) := by
  obtain ⟨hpj, jPos, hj, jMax⟩ := child_spec key h hn
  set j := child (byKey key) h i n
  have hij : i < j := hpj ▸ parent_lt jPos
  refine ⟨⟨fun c hc hcj hpc => ?_, fun _ c hc cPos hpc => ?_⟩, ?_⟩
  · rcases eq_or_ne c i with rfl | hci
    · rcases Nat.eq_zero_or_pos c with rfl | cPos
      · exact le_refl _
      · rw [Slice.swap_get_left, Slice.swap_get_of_ne _ (parent_lt cPos).ne
          ((parent_le c).trans_lt hij).ne]
        exact o.grand cPos j hj jPos hpj
    rw [Slice.swap_get_of_ne _ hci hcj]
    by_cases hpci : (c - 1) / 2 = i
    · rw [hpci, Slice.swap_get_left]
      exact jMax c hc (by omega) hpci
    · rw [Slice.swap_get_of_ne _ hpci hpc]
      exact o.except c hc hci hpci
  · have jc : j < c := hpc ▸ parent_lt cPos
    rw [hpj, Slice.swap_get_left, Slice.swap_get_of_ne _ (hij.trans jc).ne' jc.ne']
    simpa [hpc] using o.except c hc (hij.trans jc).ne' (hpc ▸ hij.ne')
  · rw [hpj, Slice.swap_get_left, Slice.swap_get_right]
    exact below.le

/-- `down` restores the heap order from a down-order hole. -/
theorem downLoop_ordered (fuel : Nat) {h : Slice α} {n i : Nat} (o : DownOrder key h n i)
    (enough : n - i ≤ fuel) : Ordered key (downLoop (byKey key) fuel h i n).1 n := by
  induction fuel generalizing h i with
  | zero => exact o.ordered fun c hc _ hpc => by omega
  | succ fuel ih =>
    unfold downLoop
    split
    · exact o.ordered fun c hc _ hpc => by omega
    · rename_i hn
      split
      · rename_i stop
        simp only [lessAt, byKey_eq_false] at stop
        exact o.ordered fun c hc cPos hpc =>
          ((child_spec key h (not_le.1 hn)).2.2.2 c hc cPos hpc).trans stop
      · rename_i go
        simp only [lessAt, Bool.not_eq_false, byKey_eq_true] at go
        obtain ⟨hpj, jPos, -⟩ := child_spec key h (not_le.1 hn)
        exact ih (o.toHoleOrder.swap (not_le.1 hn) go) (by omega)

/-- A hole whose children are below it is an up-order hole. -/
theorem HoleOrder.toUpOrder {h : Slice α} {n i : Nat} (o : HoleOrder key h n i)
    (stop : ∀ c < n, 0 < c → (c - 1) / 2 = i → key (h.get c) ≤ key (h.get i)) :
    UpOrder key h n i := ⟨o, stop⟩

/-- `down` from a hole either leaves the slice as it is, the hole's children being below it,
or moves the element and leaves the first `n` in heap order. -/
theorem downLoop_hole (fuel : Nat) {h : Slice α} {n i : Nat} (o : HoleOrder key h n i)
    (enough : n - i ≤ fuel) :
    let r := downLoop (byKey key) fuel h i n
    (r.2 = i ∧ r.1 = h ∧
      ∀ c < n, 0 < c → (c - 1) / 2 = i → key (h.get c) ≤ key (h.get i)) ∨
      (i < r.2 ∧ Ordered key r.1 n) := by
  cases fuel with
  | zero => exact .inl ⟨rfl, rfl, fun c hc _ hpc => by omega⟩
  | succ fuel =>
    simp only [downLoop]
    split
    · exact .inl ⟨rfl, rfl, fun c hc _ hpc => by omega⟩
    · rename_i hn
      obtain ⟨hpj, jPos, -, jMax⟩ := child_spec key h (not_le.1 hn)
      split
      · rename_i stop
        simp only [lessAt, byKey_eq_false] at stop
        exact .inl ⟨rfl, rfl, fun c hc cPos hpc => (jMax c hc cPos hpc).trans stop⟩
      · rename_i go
        simp only [lessAt, Bool.not_eq_false, byKey_eq_true] at go
        refine .inr ⟨?_, downLoop_ordered fuel (o.swap (not_le.1 hn) go) (by omega)⟩
        have := downLoop_ge (byKey key) fuel (h.swap i (child (byKey key) h i n))
          (child (byKey key) h i n) n
        omega

theorem Ordered.mono {h : Slice α} {m n : Nat} (o : Ordered key h m) (hnm : n ≤ m) :
    Ordered key h n := fun c hc => o c (by omega)

theorem Ordered.dropLast {h : Slice α} {n : Nat} (o : Ordered key h n) :
    Ordered key h.dropLast n := o

/-- In heap order the first element has the greatest key. -/
theorem Ordered.le_get_zero {h : Slice α} {n : Nat} (o : Ordered key h n) :
    ∀ c < n, key (h.get c) ≤ key (h.get 0) := by
  intro c
  induction c using Nat.strong_induction_on with
  | _ c ih =>
    intro hc
    rcases Nat.eq_zero_or_pos c with rfl | cPos
    · exact le_refl _
    · exact (o c hc).trans (ih _ (by omega) (by omega))

/-- Moving the last element to `i` and leaving the last position out leaves a hole at `i`. -/
theorem Ordered.swap_last {h : Slice α} (o : Ordered key h h.len) (i : Nat) :
    HoleOrder key (h.swap i (h.len - 1)) (h.len - 1) i where
  except c hc hci hpc := by
    rw [Slice.swap_get_of_ne _ hci hc.ne,
      Slice.swap_get_of_ne _ hpc ((parent_le c).trans_lt hc).ne]
    exact o c (by omega)
  grand iPos c hc cPos hpc := by
    have ic : i < c := hpc ▸ parent_lt cPos
    rw [Slice.swap_get_of_ne _ ic.ne' hc.ne,
      Slice.swap_get_of_ne _ (parent_lt iPos).ne ((parent_lt iPos).trans (ic.trans hc)).ne]
    exact (hpc ▸ o c (by omega)).trans (o i (by omega))

/-- `Push` keeps the heap order. -/
theorem push_ordered {h : Slice α} (o : Ordered key h h.len) (x : α) :
    Ordered key (push (byKey key) h x) (h.len + 1) := by
  refine up_ordered h.len ⟨⟨fun c hc hcl hpc => ?_, fun pos c hc cPos hpc => by omega⟩,
    fun c hc cPos hpc => by omega⟩ (by omega) le_rfl
  rw [Slice.append_get_of_lt _ _ (by omega), Slice.append_get_of_lt _ _ (by omega)]
  exact o c (by omega)

theorem push_perm (h : Slice α) (x : α) :
    (push less h x).toList.Perm (h.toList ++ [x]) := by
  rw [← Slice.toList_append]
  exact up_perm less _ _ (by simp)

@[simp] theorem push_len (h : Slice α) (x : α) : (push less h x).len = h.len + 1 := by
  simp [push]

@[simp] theorem popLast_len (h : Slice α) : (popLast h).2.len = h.len - 1 := rfl

theorem popLast_perm (h : Slice α) (pos : 0 < h.len) :
    ((popLast h).1 :: (popLast h).2.toList).Perm h.toList := by
  rw [Slice.toList_of_pos h pos]
  exact (List.perm_append_singleton _ _).symm

/-- `Pop` takes off the first element. -/
theorem pop_fst (h : Slice α) : (pop less h).1 = h.get 0 := by
  simp [pop, popLast, down, downLoop_get_of_le]

@[simp] theorem pop_len (h : Slice α) : (pop less h).2.len = h.len - 1 := by
  simp [pop, down]

theorem pop_perm (h : Slice α) (pos : 0 < h.len) :
    ((pop less h).1 :: (pop less h).2.toList).Perm h.toList :=
  (popLast_perm _ (by simpa [down] using pos)).trans
    ((downLoop_perm less _ _ (by simp)).trans (Slice.toList_swap_perm _ (by omega) (by omega)))

/-- `Pop` keeps the heap order of the rest. -/
theorem pop_ordered {h : Slice α} (o : Ordered key h h.len) :
    Ordered key (pop (byKey key) h).2 (pop (byKey key) h).2.len := by
  simp only [pop_len]
  exact Ordered.dropLast (downLoop_ordered _ ⟨o.swap_last 0, le_rfl⟩ le_rfl)

@[simp] theorem removeSift_len (h : Slice α) (i : Nat) : (removeSift less h i).len = h.len := by
  simp only [removeSift, down]; split <;> [split <;> simp; rfl]

/-- The sift of `Remove` leaves the removed element last. -/
theorem removeSift_get_last (h : Slice α) {i : Nat} (hi : i < h.len) :
    (removeSift less h i).get (h.len - 1) = h.get i := by
  simp only [removeSift, down]
  split
  · split <;> simp [up_get_of_lt _ _ _ (show i < h.len - 1 by omega), downLoop_get_of_le]
  · rename_i last
    rw [not_not.1 last]

theorem removeSift_perm (h : Slice α) {i : Nat} (hi : i < h.len) :
    (removeSift less h i).toList.Perm h.toList := by
  simp only [removeSift, down]
  have swapped := Slice.toList_swap_perm h hi (show h.len - 1 < h.len by omega)
  split
  · split
    · exact (downLoop_perm less _ _ (by simp)).trans swapped
    · exact (up_perm less _ _ (by simp; omega)).trans
        ((downLoop_perm less _ _ (by simp)).trans swapped)
  · exact List.Perm.refl _

/-- `Remove` takes off the element at `i`. -/
theorem remove_fst (h : Slice α) {i : Nat} (hi : i < h.len) : (remove less h i).1 = h.get i := by
  simp [remove, popLast, removeSift_get_last less h hi]

@[simp] theorem remove_len (h : Slice α) (i : Nat) : (remove less h i).2.len = h.len - 1 := by
  simp [remove]

theorem remove_perm (h : Slice α) {i : Nat} (hi : i < h.len) :
    ((remove less h i).1 :: (remove less h i).2.toList).Perm h.toList :=
  (popLast_perm _ (by simp; omega)).trans (removeSift_perm less h hi)

/-- `Remove` keeps the heap order of the rest. -/
theorem remove_ordered {h : Slice α} (o : Ordered key h h.len) {i : Nat} (hi : i < h.len) :
    Ordered key (remove (byKey key) h i).2 (remove (byKey key) h i).2.len := by
  rw [remove_len]
  show Ordered key (removeSift (byKey key) h i).dropLast (h.len - 1)
  refine Ordered.dropLast ?_
  simp only [removeSift, down]
  split
  · rename_i hne
    have hole := o.swap_last i
    rcases downLoop_hole (h.len - 1) hole (by omega) with
      ⟨same, unchanged, stop⟩ | ⟨moved, ord⟩
    · simp only [same, unchanged, lt_self_iff_false, decide_False, Bool.false_eq_true, if_false]
      exact up_ordered i (hole.toUpOrder stop) (by omega) le_rfl
    · simpa [moved] using ord
  · exact o.mono (by omega)

end Order

end Heap

end Siso
