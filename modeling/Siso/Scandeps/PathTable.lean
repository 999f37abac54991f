import Mathlib.Logic.Function.Basic
import Siso.Go.Strings

/-!
# `scandeps.PathTable`

A `PathTable` interns path strings: `GetIndex` returns the index of a path, giving a path it has
not seen the next index `len(idxToPath)`, and `GetPath` returns the path at an index, or an error
for an index out of range.  The map `pathToIdx` is a function.  The indices it stores are
lengths of `idxToPath`, so they are `Nat`; `GetPath` takes any `int`.

`Inverse` says in one statement that `pathToIdx` and `idxToPath` are inverse to each other:
`pathToIdx[p] = i` exactly when `idxToPath[i] = p`.  `GetIndex` keeps it and never changes an
index it gave, so over any sequence of calls the table lists the strings in order of first
occurrence (`List.eraseDups`), and each call returns the index of its string there.
-/

namespace Siso.Scandeps

open Function

/-- `PathTable`. -/
structure PathTable where
  pathToIdx : List UInt8 → Option Nat
  idxToPath : List (List UInt8)

/-- `NewPathTable()`. -/
def newPathTable : PathTable := ⟨fun _ => none, []⟩

/-- `pt.GetIndex(path)`: the table after it, and the index it returns. -/
def PathTable.getIndex (pt : PathTable) (path : List UInt8) : PathTable × Nat :=
  match pt.pathToIdx path with
  | some idx => (pt, idx)
  | none =>
    let idx := pt.idxToPath.length
    (⟨update pt.pathToIdx path (some idx), pt.idxToPath ++ [path]⟩, idx)

/-- The error of `GetPath`: `invalid path index %d`. -/
structure PathIndexError where
  idx : Int
  deriving DecidableEq, Repr

/-- `pt.GetPath(idx)`. -/
def PathTable.getPath (pt : PathTable) (idx : Int) : Except PathIndexError (List UInt8) :=
  if h : idx < 0 ∨ pt.idxToPath.length ≤ idx then .error ⟨idx⟩
  else .ok (pt.idxToPath.get ⟨idx.toNat, by omega⟩)

/-- `GetIndex` on each path in turn: the table after the calls, and the index each returned. -/
def getIndexAll : PathTable → List (List UInt8) → PathTable × List Nat
  | pt, [] => (pt, [])
  | pt, path :: paths =>
    let r := pt.getIndex path
    let rest := getIndexAll r.1 paths
    (rest.1, r.2 :: rest.2)

/-- `pathToIdx` and `idxToPath` are inverse to each other. -/
def PathTable.Inverse (pt : PathTable) : Prop :=
  ∀ p i, pt.pathToIdx p = some i ↔ pt.idxToPath[i]? = some p

section GetIndex

variable {pt : PathTable} {path p : List UInt8} {i : Nat}

/-- `GetIndex` leaves `path` mapped to the index it returns. -/
theorem getIndex_self (pt : PathTable) (path : List UInt8) :
    (pt.getIndex path).1.pathToIdx path = some (pt.getIndex path).2 := by
  unfold PathTable.getIndex
  split
  · assumption
  · exact update_same _ _ _

/-- `GetIndex` changes no index it gave before. -/
theorem getIndex_stable (path : List UInt8) (old : pt.pathToIdx p = some i) :
    (pt.getIndex path).1.pathToIdx p = some i := by
  unfold PathTable.getIndex
  split
  · exact old
  · rename_i fresh
    exact (update_noteq (by rintro rfl; simp [fresh] at old) _ _).trans old

/-- `GetIndex` appends `path` to `idxToPath` when it has no index yet. -/
theorem getIndex_idxToPath (pt : PathTable) (path : List UInt8) :
    (pt.getIndex path).1.idxToPath =
      if (pt.pathToIdx path).isSome then pt.idxToPath else pt.idxToPath ++ [path] := by
  unfold PathTable.getIndex
  split <;> simp_all

theorem newPathTable_inverse : newPathTable.Inverse := by
  intro p i
  simp [newPathTable]

/-- A path is in `idxToPath` exactly when it has an index. -/
theorem PathTable.Inverse.mem_iff (inv : pt.Inverse) :
    p ∈ pt.idxToPath ↔ (pt.pathToIdx p).isSome := by
  rw [Option.isSome_iff_exists, List.mem_iff_getElem?]
  exact exists_congr fun i => (inv p i).symm

theorem getElem?_singleton_eq_some {a b : List UInt8} {n : Nat} :
    [a][n]? = some b ↔ n = 0 ∧ a = b := by
  cases n <;> simp

/-- `GetIndex` keeps the two maps inverse to each other. -/
theorem PathTable.Inverse.getIndex (inv : pt.Inverse) (path : List UInt8) :
    (pt.getIndex path).1.Inverse := by
  unfold PathTable.getIndex
  split
  · exact inv
  · rename_i fresh
    intro p i
    dsimp only
    rw [List.getElem?_append]
    rcases eq_or_ne p path with rfl | ne
    · -- the new path: at the new index and nowhere before it
      rw [update_same, Option.some.injEq]
      split
      · exact iff_of_false (by omega) fun h => by simp [(inv p i).2 h] at fresh
      · rw [getElem?_singleton_eq_some, and_iff_left rfl]
        omega
    · rw [update_noteq ne, inv p i]
      split
      · rfl
      · rw [List.getElem?_eq_none (by omega), getElem?_singleton_eq_some]
        simp [ne.symm]

end GetIndex

section Run

variable {pt : PathTable} {p : List UInt8} {i : Nat}

/-- One index per call. -/
theorem getIndexAll_length (pt : PathTable) (paths : List (List UInt8)) :
    (getIndexAll pt paths).2.length = paths.length := by
  induction paths generalizing pt with
  | nil => rfl
  | cons path paths ih => simp [getIndexAll, ih]

/-- A run of `GetIndex` calls changes no index given before it. -/
theorem getIndexAll_stable (paths : List (List UInt8)) (old : pt.pathToIdx p = some i) :
    (getIndexAll pt paths).1.pathToIdx p = some i := by
  induction paths generalizing pt with
  | nil => exact old
  | cons path paths ih => exact ih (getIndex_stable path old)

theorem PathTable.Inverse.getIndexAll (inv : pt.Inverse) (paths : List (List UInt8)) :
    (Scandeps.getIndexAll pt paths).1.Inverse := by
  induction paths generalizing pt with
  | nil => exact inv
  | cons path paths ih => exact ih (inv.getIndex path)

/-- Each call of a run returns the index its path has at the end of the run. -/
theorem getIndexAll_returns (pt : PathTable) (paths : List (List UInt8)) :
    ∀ c ∈ paths.zip (getIndexAll pt paths).2,
      (getIndexAll pt paths).1.pathToIdx c.1 = some c.2 := by
  induction paths generalizing pt with
  | nil => simp [getIndexAll]
  | cons path paths ih =>
    simp only [getIndexAll, List.zip_cons_cons, List.forall_mem_cons]
    exact ⟨getIndexAll_stable paths (getIndex_self pt path), ih _⟩

/-- A run appends the paths it has not seen, in order of first occurrence, as `eraseDups` keeps
them. -/
theorem PathTable.Inverse.idxToPath_getIndexAll (inv : pt.Inverse) (paths : List (List UInt8)) :
    (Scandeps.getIndexAll pt paths).1.idxToPath =
      List.eraseDups.loop paths pt.idxToPath.reverse := by
  induction paths generalizing pt with
  | nil => simp [Scandeps.getIndexAll, List.eraseDups.loop]
  | cons path paths ih =>
    rw [Scandeps.getIndexAll, ih (inv.getIndex path), getIndex_idxToPath, List.eraseDups.loop,
      List.elem_eq_mem]
    by_cases interned : (pt.pathToIdx path).isSome <;> simp [interned, inv.mem_iff]

end Run

/-- The table `pt` and the indices `idxs` that a sequence `paths` of `GetIndex` calls on a new
table leaves and returns: the two maps are inverse, each string gets one index, the indices are
dense in order of first occurrence, and `GetPath` answers exactly for them. -/
structure PathTableContract (paths : List (List UInt8)) (pt : PathTable) (idxs : List Nat) :
    Prop where
  /-- `idxToPath[pathToIdx[p]] = p` for every interned `p`, -/
  path_at_index : ∀ p i, pt.pathToIdx p = some i → pt.idxToPath[i]? = some p
  /-- and `pathToIdx[idxToPath[i]] = i` for every `i < len(idxToPath)`. -/
  index_of_path : ∀ i (h : i < pt.idxToPath.length), pt.pathToIdx pt.idxToPath[i] = some i
  /-- Each call returns one index, the index of its path at the end, -/
  returns : idxs.length = paths.length ∧ ∀ c ∈ paths.zip idxs, pt.pathToIdx c.1 = some c.2
  /-- equal for equal strings and distinct for distinct ones. -/
  index_eq_iff : ∀ c ∈ paths.zip idxs, ∀ c' ∈ paths.zip idxs, c.2 = c'.2 ↔ c.1 = c'.1
  /-- The indices are `0, 1, 2, ...` in order of first occurrence. -/
  first_occurrence : pt.idxToPath = paths.eraseDups
  /-- `GetPath(i)` succeeds exactly for `0 ≤ i` below the number of distinct strings, -/
  getPath_ok : ∀ i : Int, (∃ p, pt.getPath i = .ok p) ↔ 0 ≤ i ∧ i < paths.eraseDups.length
  /-- and then returns the string interned at `i`. -/
  getPath_interned : ∀ (i : Int) p, pt.getPath i = .ok p → pt.idxToPath[i.toNat]? = some p

theorem path_table_contract (paths : List (List UInt8)) :
    PathTableContract paths (getIndexAll newPathTable paths).1
      (getIndexAll newPathTable paths).2 := by
  have inv := newPathTable_inverse.getIndexAll paths
  have returns := getIndexAll_returns newPathTable paths
  have first : (getIndexAll newPathTable paths).1.idxToPath = paths.eraseDups :=
    newPathTable_inverse.idxToPath_getIndexAll paths
  refine ⟨fun p i => (inv p i).1, fun i h => (inv _ i).2 (List.getElem?_eq_getElem h),
    ⟨getIndexAll_length _ _, returns⟩, fun c hc c' hc' => ⟨fun same => ?_, fun same => ?_⟩,
    first, fun i => ?_, fun i p ok => ?_⟩
  · have at₁ := (inv _ _).1 (returns c hc)
    rw [same, (inv _ _).1 (returns c' hc')] at at₁
    exact (Option.some.inj at₁).symm
  · have := returns c hc
    rw [same, returns c' hc'] at this
    exact (Option.some.inj this).symm
  · rw [← first]
    unfold PathTable.getPath
    split
    · exact iff_of_false (fun ⟨_, h⟩ => by cases h) (by omega)
    · exact iff_of_true ⟨_, rfl⟩ (by omega)
  · unfold PathTable.getPath at ok
    split at ok
    · cases ok
    · cases ok
      simp

/-- `TestGetIndexAndGetPath`: two paths, the first again, and the empty path. -/
example : (getIndexAll newPathTable
    [Go.str "path/to/file1.h", Go.str "path/to/file2.cc", Go.str "path/to/file1.h", []]).2 =
      [0, 1, 0, 2] := by decide

end Siso.Scandeps
