import Mathlib.Data.List.Dedup
import Mathlib.Data.List.Forall2
import Mathlib.Data.List.Sort
import Mathlib.Data.List.Lex
import Siso.Go.Strings

/-!
# `siso metrics cmp`

`cmp` reads the step metrics of two builds, A and B, and `join` pairs them by output: it indexes
each build by `Output`, keeping the metric stored last under an output, collects the keys of the
two maps, sorts them, and gives for each key the metric of A and the metric of B, the zero
`StepMetric{}` where a build has none.  `outputDiff` prints a pair as A's action and output and
A's times minus B's.

Go visits the keys of a map in an order it does not specify, so the order `range` gives is a
parameter, constrained only to visit each key once (`RangeOrder`).  `sort.Strings` is insertion
sort on the bytes of the keys; on keys that are all distinct every sort gives one list.

The results: whatever the order of `range`, `join` gives one pair per output of A or B, each
output once, in byte order, and each pair holds the last metric of A and of B with that output.
A step that only B ran is paired with the zero metric of A, so its diff line has an empty
output: `outputDiff` names a line by A's output, not by the key.
-/

namespace Siso.Metrics

open Go

/-- The fields of `build.StepMetric` that `cmp` reads: an `IntervalMetric` is a
`time.Duration`, an `int64`. -/
structure StepMetric where
  action : List UInt8
  output : List UInt8
  ready : BitVec 64
  start : BitVec 64
  duration : BitVec 64
  weightedDuration : BitVec 64
  runTime : BitVec 64
  queueTime : BitVec 64
  execTime : BitVec 64
  deriving DecidableEq, Repr

/-- `build.StepMetric{}`, what a Go map gives for a key it does not hold. -/
def StepMetric.zero : StepMetric := ⟨[], [], 0, 0, 0, 0, 0, 0, 0⟩

/-- `indexMap(x)`: `r[m.Output] = m` for each metric of `x` in turn. -/
def indexMap (x : List StepMetric) : List UInt8 → Option StepMetric :=
  x.foldl (fun r m k => if k = m.output then some m else r k) fun _ => none

/-- The order in which `for k := range m` visits the keys of a map: each key once. -/
def RangeOrder (m : List UInt8 → Option StepMetric) (order : List (List UInt8)) : Prop :=
  order.Nodup ∧ ∀ k, k ∈ order ↔ (m k).isSome

/-- The loop `for k := range ym { if km[k] { continue }; keys = append(keys, k); km[k] = true }`
over the keys `ks`, with `km` the keys collected so far. -/
def addKeys : List (List UInt8) → List (List UInt8) → List (List UInt8)
  | keys, [] => keys
  | keys, k :: ks => if k ∈ keys then addKeys keys ks else addKeys (keys ++ [k]) ks

/-- Go's `<=` on strings: byte by byte, a prefix first. -/
def byteLe (a b : List UInt8) : Prop := a.map UInt8.toNat ≤ b.map UInt8.toNat

instance : DecidableRel byteLe := fun _ _ => inferInstanceAs (Decidable (_ ≤ _))

instance : IsTotal (List UInt8) byteLe := ⟨fun _ _ => le_total _ _⟩

instance : IsTrans (List UInt8) byteLe := ⟨fun _ _ _ => le_trans⟩

instance : IsAntisymm (List UInt8) byteLe :=
  ⟨fun _ _ ab ba => List.map_injective_iff.2 (fun _ _ => UInt8.toNat.inj) (le_antisymm ab ba)⟩

/-- `sort.Strings(keys)`. -/
def sortStrings (keys : List (List UInt8)) : List (List UInt8) := keys.insertionSort byteLe

/-- `join(x, y)`, with `ox` and `oy` the orders in which `range` visits the keys of `xm` and
`ym`. -/
def join (ox oy : List (List UInt8)) (x y : List StepMetric) : List (List StepMetric) :=
  let xm := indexMap x
  let ym := indexMap y
  (sortStrings (addKeys ox oy)).map fun k => [(xm k).getD .zero, (ym k).getD .zero]

/-- The line `outputDiff` prints, before JSON; `Rule` is never set. -/
structure Diff where
  action : List UInt8
  output : List UInt8
  ready : BitVec 64
  start : BitVec 64
  duration : BitVec 64
  weightedDuration : BitVec 64
  runTime : BitVec 64
  queueTime : BitVec 64
  execTime : BitVec 64
  deriving DecidableEq, Repr

/-- `outputDiff(m)`, `none` where `m[0]` or `m[1]` is out of range and Go panics. -/
def outputDiff (m : List StepMetric) : Option Diff := do
  let a ← m[0]?
  let b ← m[1]?
  pure ⟨a.action, a.output, a.ready - b.ready, a.start - b.start, a.duration - b.duration,
    a.weightedDuration - b.weightedDuration, a.runTime - b.runTime, a.queueTime - b.queueTime,
    a.execTime - b.execTime⟩

/-! ## The index of a build -/

/-- The metric of `x` stored last under the output `k`, or the zero metric. -/
def lastWith (x : List StepMetric) (k : List UInt8) : StepMetric :=
  (x.reverse.find? (·.output = k)).getD .zero

theorem foldl_index (x : List StepMetric) (r : List UInt8 → Option StepMetric) (k : List UInt8) :
    x.foldl (fun r m k => if k = m.output then some m else r k) r k =
      (x.reverse.find? (·.output = k)).or (r k) := by
  induction x generalizing r with
  | nil => rfl
  | cons m x ih =>
    rw [List.foldl_cons, ih, List.reverse_cons, List.find?_append]
    by_cases hit : m.output = k
    · simp only [hit, List.find?_singleton, decide_True, if_true]
      cases x.reverse.find? (·.output = k) <;> rfl
    · simp [hit, Ne.symm hit]

/-- The map `indexMap` builds holds under each output the metric of `x` stored last there. -/
theorem indexMap_eq (x : List StepMetric) (k : List UInt8) :
    indexMap x k = x.reverse.find? (·.output = k) := by
  rw [indexMap, foldl_index]
  cases x.reverse.find? (·.output = k) <;> rfl

theorem indexMap_isSome {x : List StepMetric} {k : List UInt8} :
    (indexMap x k).isSome ↔ k ∈ x.map StepMetric.output := by
  simp [indexMap_eq, List.find?_isSome]

/-- The metric of a build stored last under an output has that output, and the zero metric has
none. -/
theorem lastWith_output (x : List StepMetric) (k : List UInt8) :
    (lastWith x k).output = if k ∈ x.map StepMetric.output then k else [] := by
  unfold lastWith
  cases found : x.reverse.find? (·.output = k) with
  | none =>
    have absent : k ∉ x.map StepMetric.output := by
      simpa [List.find?_eq_none] using found
    simp [absent, StepMetric.zero]
  | some m =>
    have hit : m.output = k := by simpa using List.find?_some found
    have mem : m ∈ x := List.mem_reverse.1 (List.mem_of_find?_eq_some found)
    simp [hit, List.mem_map.2 ⟨m, mem, hit⟩]

theorem indexMap_getD (x : List StepMetric) (k : List UInt8) :
    (indexMap x k).getD .zero = lastWith x k := by
  rw [indexMap_eq, lastWith]

/-! ## The keys -/

theorem addKeys_nodup :
    ∀ (keys ks : List (List UInt8)), keys.Nodup → (addKeys keys ks).Nodup
  | _, [], nodup => nodup
  | keys, k :: ks, nodup => by
    rw [addKeys]
    split
    · exact addKeys_nodup keys ks nodup
    · rename_i fresh
      exact addKeys_nodup _ ks (List.nodup_append.2 ⟨nodup, List.nodup_singleton k,
        fun _ mem same => fresh (List.mem_singleton.1 same ▸ mem)⟩)

theorem mem_addKeys {k : List UInt8} :
    ∀ (keys ks : List (List UInt8)), k ∈ addKeys keys ks ↔ k ∈ keys ∨ k ∈ ks
  | _, [] => by simp [addKeys]
  | keys, k' :: ks => by
    rw [addKeys]
    split
    · rename_i old
      rw [mem_addKeys keys ks, List.mem_cons]
      constructor
      · exact fun h => h.elim .inl (.inr ∘ .inr)
      · rintro (h | rfl | h)
        exacts [.inl h, .inl old, .inr h]
    · rw [mem_addKeys _ ks, List.mem_append, List.mem_singleton, List.mem_cons]
      tauto

/-- Whatever orders `range` gives, the keys `join` sorts are the outputs of A or of B, each
once. -/
theorem addKeys_range {x : List StepMetric} {ox : List (List UInt8)} (oy : List (List UInt8))
    (rangeX : RangeOrder (indexMap x) ox) :
    (addKeys ox oy).Nodup ∧ ∀ k, k ∈ addKeys ox oy ↔ k ∈ ox ∨ k ∈ oy :=
  ⟨addKeys_nodup ox oy rangeX.1, fun _ => mem_addKeys ox oy⟩

/-- The keys `join` goes through: the outputs of A or of B, each once, in byte order. -/
def joinKeys (x y : List StepMetric) : List (List UInt8) :=
  sortStrings ((x.map StepMetric.output ++ y.map StepMetric.output).dedup)

theorem sortStrings_perm_eq {l₁ l₂ : List (List UInt8)} (perm : l₁.Perm l₂) :
    sortStrings l₁ = sortStrings l₂ :=
  List.eq_of_perm_of_sorted
    ((List.perm_insertionSort _ l₁).trans (perm.trans (List.perm_insertionSort _ l₂).symm))
    (List.sorted_insertionSort _ l₁) (List.sorted_insertionSort _ l₂)

/-- `join` sorts the keys of `joinKeys`, whatever orders `range` gives. -/
theorem sortStrings_addKeys {x y : List StepMetric} {ox oy : List (List UInt8)}
    (rangeX : RangeOrder (indexMap x) ox) (rangeY : RangeOrder (indexMap y) oy) :
    sortStrings (addKeys ox oy) = joinKeys x y := by
  obtain ⟨nodup, mem⟩ := addKeys_range oy rangeX
  refine sortStrings_perm_eq ((List.perm_ext_iff_of_nodup nodup (List.nodup_dedup _)).2
    fun k => ?_)
  rw [mem, List.mem_dedup, List.mem_append, rangeX.2, rangeY.2, indexMap_isSome, indexMap_isSome]

theorem join_eq {x y : List StepMetric} {ox oy : List (List UInt8)}
    (rangeX : RangeOrder (indexMap x) ox) (rangeY : RangeOrder (indexMap y) oy) :
    join ox oy x y = (joinKeys x y).map fun k => [lastWith x k, lastWith y k] := by
  simp only [join, sortStrings_addKeys rangeX rangeY, indexMap_getD]

theorem joinKeys_spec (x y : List StepMetric) :
    (joinKeys x y).Sorted byteLe ∧ (joinKeys x y).Nodup ∧
      ∀ k, k ∈ joinKeys x y ↔ k ∈ x.map StepMetric.output ∨ k ∈ y.map StepMetric.output := by
  have perm := List.perm_insertionSort byteLe (x.map StepMetric.output ++
    y.map StepMetric.output).dedup
  refine ⟨List.sorted_insertionSort _ _, perm.nodup_iff.2 (List.nodup_dedup _), fun k => ?_⟩
  rw [joinKeys, sortStrings, perm.mem_iff, List.mem_dedup, List.mem_append]

/-- Whatever order `range` visits the keys of the two maps in, `join` pairs each output of A or
of B once, in byte order, with the last metric of A and of B stored under it, or the zero
metric where a build has none. -/
theorem join_pairs_each_output {x y : List StepMetric} {ox oy : List (List UInt8)}
    (rangeX : RangeOrder (indexMap x) ox) (rangeY : RangeOrder (indexMap y) oy) :
    ∃ keys : List (List UInt8), keys.Sorted byteLe ∧ keys.Nodup ∧
      (∀ k, k ∈ keys ↔ k ∈ x.map StepMetric.output ∨ k ∈ y.map StepMetric.output) ∧
      join ox oy x y = keys.map fun k =>
        [(x.reverse.find? (·.output = k)).getD .zero,
          (y.reverse.find? (·.output = k)).getD .zero] :=
  let ⟨sorted, nodup, mem⟩ := joinKeys_spec x y
  ⟨joinKeys x y, sorted, nodup, mem, join_eq rangeX rangeY⟩

/-- `for k := range m` may visit the keys of a build's map in any order that lists its outputs
once each. -/
theorem rangeOrder_of_perm (x : List StepMetric) (order : List (List UInt8))
    (perm : order.Perm (x.map StepMetric.output).dedup) : RangeOrder (indexMap x) order :=
  ⟨perm.nodup_iff.2 (List.nodup_dedup _), fun k => by
    rw [perm.mem_iff, List.mem_dedup, indexMap_isSome]⟩

/-- Two builds: A ran `cc` for `b.o` and then for `a.o`, B only for `a.o`. -/
def buildA : List StepMetric :=
  [⟨str "cc b", str "b.o", 0, 0, 7, 7, 7, 0, 7⟩, ⟨str "cc a", str "a.o", 0, 7, 5, 5, 5, 0, 5⟩]

def buildB : List StepMetric := [⟨str "cc a", str "a.o", 0, 0, 3, 3, 3, 0, 3⟩]

theorem join_pairs_each_output_ab :
    (RangeOrder (indexMap buildA) [str "b.o", str "a.o"] ∧
      RangeOrder (indexMap buildB) [str "a.o"]) ∧
    ∃ keys : List (List UInt8), keys.Sorted byteLe ∧ keys.Nodup ∧
      (∀ k, k ∈ keys ↔ k ∈ buildA.map StepMetric.output ∨ k ∈ buildB.map StepMetric.output) ∧
      join [str "b.o", str "a.o"] [str "a.o"] buildA buildB = keys.map fun k =>
        [(buildA.reverse.find? (·.output = k)).getD .zero,
          (buildB.reverse.find? (·.output = k)).getD .zero] :=
  let rangeA := rangeOrder_of_perm buildA [str "b.o", str "a.o"] (by decide)
  let rangeB := rangeOrder_of_perm buildB [str "a.o"] (by decide)
  ⟨⟨rangeA, rangeB⟩, join_pairs_each_output rangeA rangeB⟩

/-- Whatever order `range` gives, the diff of `cmp` prints one line for each output of A or of B,
without a panic, and names the line by A's output: the output itself where A ran a step for it,
and the empty string where only B did. -/
theorem diff_names_output_of_a {x y : List StepMetric} {ox oy : List (List UInt8)}
    (rangeX : RangeOrder (indexMap x) ox) (rangeY : RangeOrder (indexMap y) oy) :
    ∃ keys : List (List UInt8), keys.Nodup ∧
      (∀ k, k ∈ keys ↔ k ∈ x.map StepMetric.output ∨ k ∈ y.map StepMetric.output) ∧
      List.Forall₂ (fun k line => ∃ d : Diff, line = some d ∧
          d.output = if k ∈ x.map StepMetric.output then k else [])
        keys ((join ox oy x y).map outputDiff) := by
  refine ⟨joinKeys x y, (joinKeys_spec x y).2.1, (joinKeys_spec x y).2.2, ?_⟩
  rw [join_eq rangeX rangeY, List.map_map, List.forall₂_map_right_iff, List.forall₂_same]
  exact fun k _ => ⟨_, rfl, lastWith_output x k⟩

theorem diff_names_output_of_a_ab :
    (RangeOrder (indexMap buildB) [str "a.o"] ∧
      RangeOrder (indexMap buildA) [str "a.o", str "b.o"]) ∧
    ∃ keys : List (List UInt8), keys.Nodup ∧
      (∀ k, k ∈ keys ↔ k ∈ buildB.map StepMetric.output ∨ k ∈ buildA.map StepMetric.output) ∧
      List.Forall₂ (fun k line => ∃ d : Diff, line = some d ∧
          d.output = if k ∈ buildB.map StepMetric.output then k else [])
        keys ((join [str "a.o"] [str "a.o", str "b.o"] buildB buildA).map outputDiff) :=
  let rangeB := rangeOrder_of_perm buildB [str "a.o"] (by decide)
  let rangeA := rangeOrder_of_perm buildA [str "a.o", str "b.o"] (by decide)
  ⟨⟨rangeB, rangeA⟩, diff_names_output_of_a rangeB rangeA⟩

/-- With B as the target and A as the base, `b.o`, which only A built, is printed with an empty
action and output. -/
example : (join [str "a.o"] [str "a.o", str "b.o"] buildB buildA).map outputDiff =
    [some ⟨str "cc a", str "a.o", 0, 0 - 7, 3 - 5, 3 - 5, 3 - 5, 0, 3 - 5⟩,
      some ⟨[], [], 0, 0, 0 - 7, 0 - 7, 0 - 7, 0, 0 - 7⟩] := by decide

end Siso.Metrics
