import Siso.Hashfs.FileSystem

/-!
# `FileSystem.Stat`, `ReadFile` and `ReadDir`: following symlinks by name

`Stat`, `ReadFile` and `ReadDir` ask `HashFS` for a name, relative to the exec root `dir` or
absolute, and when the answer is a symlink they go on with the name `resolveSymlinkPath` gives
for it, at most `maxSymlinks` times before they give up with `ELOOP`.  `Stat` meets a symlink as
a `FileInfo` with a non-empty `Target()` and collects the ones it follows, which `Visited` and
`VisitedPaths` read back; `ReadFile` and `ReadDir` meet one as a `SymlinkError` with its path
and target, and differ only in the `Op` of their errors.

`HashFS` is not in the repository's files, so its answers are a parameter.  What the loops are
for is stated over clean absolute paths: `statChase` and `readChase` ask for the path a name
stands for and follow a symlink to where it points (`linkDest`).  When `HashFS` answers for a
name by its path `filepath.Join(root, name)`, which is then the `Path()` of the `FileInfo` it
returns, and reports symlinks at absolute paths, as `Open` relies on when it passes `Path()`
with an empty root, each loop asks for exactly the paths of the chase and returns what it
returns.  The names relative to the root that the loops carry in between change nothing.
-/

namespace Siso.Hashfs

open Go Filepath

/-- The `root` the loops pass to `HashFS` with `name`: `fsys.dir`, or `""` for an absolute
name. -/
def rootOf (dir name : List UInt8) : List UInt8 := if isAbs name then [] else dir

/-- The path `filepath.Join(root, name)` that a name stands for. -/
def absPath (dir name : List UInt8) : List UInt8 := join (rootOf dir name) name

/-- The `Err` of a `fs.PathError` of the loops: the error of `HashFS`, or `syscall.ELOOP`. -/
inductive Errno (ε : Type)
  | hashfs (e : ε)
  | eloop
  deriving DecidableEq, Repr

/-- `fs.PathError{Op, Path, Err}`. -/
structure PathError (ε : Type) where
  op : List UInt8
  path : List UInt8
  err : Errno ε
  deriving DecidableEq, Repr

/-- The `Path()` and the `Target()` of a `FileInfo` of `HashFS`; the target is empty for a file
or a directory. -/
structure Info where
  path : List UInt8
  target : List UInt8
  deriving DecidableEq, Repr

/-- What `FileSystem.Stat` returns. -/
inductive StatResult (ε : Type)
  /-- The `FileInfo` `HashFS.Stat` gave for a file or a directory, its `fis` set to the
  symlinks followed to it. -/
  | found (fi : Info) (fis : List Info)
  /-- `FileInfo{root, fname, fis}`, which has no entry, and the `fs.PathError`. -/
  | failed (root fname : List UInt8) (fis : List Info) (err : PathError ε)
  deriving DecidableEq, Repr

section Stat

variable {ε : Type} (dir : List UInt8) (hstat : List UInt8 → List UInt8 → Except ε Info)

/-- The loop of `FileSystem.Stat(pathname)`, with `k` rounds left, at `name`, with the symlinks
`fis` followed so far. -/
def statLoop (pathname : List UInt8) : Nat → List UInt8 → List Info → StatResult ε
  | 0, _, fis => .failed dir pathname fis ⟨str "stat", pathname, .eloop⟩
  | k + 1, name, fis =>
    match hstat (rootOf dir name) name with
    | .error e => .failed (rootOf dir name) name fis ⟨str "stat", pathname, .hashfs e⟩
    | .ok fi =>
      if fi.target = [] then .found fi fis
      else statLoop pathname k (resolveSymlinkPath dir fi.path fi.target) (fis ++ [fi])

/-- `FileSystem.Stat(name)`. -/
def stat (name : List UInt8) : StatResult ε := statLoop dir hstat name maxSymlinks name []

end Stat

/-- `FileSystem.Visited(fi)` for a result of `Stat`: a `FileInfo` that a failed `Stat` builds
has no entry, so only the symlinks followed are visited. -/
def visited {ε : Type} : StatResult ε → List Info
  | .found fi fis => fis ++ [fi]
  | .failed _ _ fis _ => fis

/-- The error `Stat` returns. -/
def StatResult.err {ε : Type} : StatResult ε → Option (PathError ε)
  | .found .. => none
  | .failed _ _ _ err => some err

/-- `FileSystem.VisitedPaths(fi)` for a result of `Stat`: each visited path that `Rel` makes
local to the root, relative to it. -/
def visitedPaths {ε : Type} (dir : List UInt8) (r : StatResult ε) : List (List UInt8) :=
  (visited r).filterMap fun fi =>
    match rel dir fi.path with
    | some relPath => if isLocal relPath then some relPath else none
    | none => none

/-- What `HashFS.ReadFile` or `HashFS.ReadDir` answers: the contents or the entries, a
`SymlinkError{Path, Target}` for a symlink on the way, or another error. -/
inductive Reply (ε α : Type)
  | ok (a : α)
  | symlink (path target : List UInt8)
  | error (e : ε)
  deriving DecidableEq, Repr

section Read

variable {ε α : Type} (op dir : List UInt8) (read : List UInt8 → List UInt8 → Reply ε α)

/-- The loop of `ReadFile(pathname)` and `ReadDir(pathname)`, whose errors have the `Op` `op`,
with `k` rounds left, at `name`. -/
def readLoop (pathname : List UInt8) : Nat → List UInt8 → Except (PathError ε) α
  | 0, _ => .error ⟨op, pathname, .eloop⟩
  | k + 1, name =>
    match read (rootOf dir name) name with
    | .ok a => .ok a
    | .symlink path target => readLoop pathname k (resolveSymlinkPath dir path target)
    | .error e => .error ⟨op, pathname, .hashfs e⟩

end Read

/-- `FileSystem.ReadFile(name)`. -/
def readFile {ε : Type} (dir : List UInt8)
    (read : List UInt8 → List UInt8 → Reply ε (List UInt8)) (name : List UInt8) :
    Except (PathError ε) (List UInt8) :=
  readLoop (str "readfile") dir read name maxSymlinks name

/-- `FileSystem.ReadDir(name)`; the entries are returned as `HashFS` gave them. -/
def readDir {ε δ : Type} (dir : List UInt8)
    (read : List UInt8 → List UInt8 → Reply ε (List δ)) (name : List UInt8) :
    Except (PathError ε) (List δ) :=
  readLoop (str "readdir") dir read name maxSymlinks name

/-! ### The loops over absolute paths -/

section Chase

variable {ε α : Type} (dir : List UInt8)

/-- `HashFS.Stat` answering for a name by its path `filepath.Join(root, name)`, which is also
the `Path()` of the `FileInfo`: `look` gives the target of the node at a path, empty for a file
or a directory, or the error. -/
def hashfsStat (look : List UInt8 → Except ε (List UInt8)) (root name : List UInt8) :
    Except ε Info :=
  (look (join root name)).map fun target => ⟨join root name, target⟩

/-- What `Stat` is for, over absolute paths: ask `look` for the node at `p` and follow a symlink
to where it points, with `k` symlinks left to follow and the nodes `fis` met so far; the nodes
met, and the error. -/
def statChase (look : List UInt8 → Except ε (List UInt8)) (pathname : List UInt8) :
    Nat → List UInt8 → List Info → List Info × Option (PathError ε)
  | 0, _, fis => (fis, some ⟨str "stat", pathname, .eloop⟩)
  | k + 1, p, fis =>
    match look p with
    | .error e => (fis, some ⟨str "stat", pathname, .hashfs e⟩)
    | .ok target =>
      if target = [] then (fis ++ [⟨p, target⟩], none)
      else statChase look pathname k (linkDest dir p target) (fis ++ [⟨p, target⟩])

/-- What `ReadFile` and `ReadDir` are for, over absolute paths: ask `res` at `p` and follow a
symlink it reports to where the link points, with `k` symlinks left to follow. -/
def readChase (res : List UInt8 → Reply ε α) : Nat → List UInt8 → Except (Errno ε) α
  | 0, _ => .error .eloop
  | k + 1, p =>
    match res p with
    | .ok a => .ok a
    | .symlink q target => readChase res k (linkDest dir q target)
    | .error e => .error (.hashfs e)

end Chase

section Refine

variable {ε α : Type} {dir : List UInt8}

/-- A name that denotes `dest` stands for it. -/
theorem Denotes.absPath_eq {r dest : List UInt8} (h : Denotes dir r dest) :
    absPath dir r = dest := by
  rcases h.1 with ⟨rAbs, rfl⟩ | ⟨rLocal, joins⟩
  · simp [absPath, rootOf, rAbs, join, ne_nil_of_isAbs rAbs]
  · simpa [absPath, rootOf, isAbs_eq_false_of_isLocal rLocal] using joins

/-- The path a name stands for is absolute and clean. -/
theorem absPath_abs_clean (dirAbs : isAbs dir) (name : List UInt8) :
    isAbs (absPath dir name) ∧ clean (absPath dir name) = absPath dir name := by
  unfold absPath rootOf
  split
  · rename_i nameAbs
    simp [join, ne_nil_of_isAbs nameAbs, isAbs_clean, nameAbs, clean_clean]
  · exact ⟨by rw [isAbs_join (ne_nil_of_isAbs dirAbs), dirAbs],
      clean_join (ne_nil_of_isAbs dirAbs) name⟩

theorem isAbs_linkDest (dirAbs : isAbs dir) (path target : List UInt8) :
    isAbs (linkDest dir path target) := by
  unfold linkDest
  split <;> split <;>
    simp_all [isAbs_clean, isAbs_join, dir_ne_nil, isAbs_dir, ne_nil_of_isAbs dirAbs]

/-- The name `resolveSymlinkPath` gives for a symlink at an absolute path stands for where the
link points. -/
theorem absPath_resolveSymlinkPath (dirAbs : isAbs dir) {path : List UInt8}
    (pathAbs : isAbs path) (target : List UInt8) :
    absPath dir (resolveSymlinkPath dir path target) = linkDest dir path target :=
  (resolveSymlinkPath_abs dirAbs pathAbs).absPath_eq

/-- The loop of `Stat` at a name is the chase at the path the name stands for: each round asks
`HashFS` for that path, and the name it goes on with stands for where the link points. -/
theorem statLoop_chase (dirAbs : isAbs dir) (look : List UInt8 → Except ε (List UInt8))
    (pathname : List UInt8) (k : Nat) (name : List UInt8) (fis : List Info) :
    (visited (statLoop dir (hashfsStat look) pathname k name fis),
        (statLoop dir (hashfsStat look) pathname k name fis).err) =
      statChase dir look pathname k (absPath dir name) fis := by
  induction k generalizing name fis with
  | zero => rfl
  | succ k ih =>
    have asked : join (rootOf dir name) name = absPath dir name := rfl
    simp only [statLoop, statChase, hashfsStat, asked]
    cases look (absPath dir name) with
    | error e => rfl
    | ok target =>
      by_cases file : target = []
      · simp [Except.map, file, visited, StatResult.err]
      · simp only [Except.map, file, if_false]
        rw [ih, absPath_resolveSymlinkPath dirAbs (absPath_abs_clean dirAbs name).1]

/-- The nodes the chase meets are at clean absolute paths. -/
theorem statChase_paths (dirAbs : isAbs dir) (look : List UInt8 → Except ε (List UInt8))
    (pathname : List UInt8) (k : Nat) {p : List UInt8} {fis : List Info}
    (pPath : isAbs p ∧ clean p = p)
    (fisPaths : ∀ fi ∈ fis, isAbs fi.path ∧ clean fi.path = fi.path) :
    ∀ fi ∈ (statChase dir look pathname k p fis).1,
      isAbs fi.path ∧ clean fi.path = fi.path := by
  induction k generalizing p fis with
  | zero => exact fisPaths
  | succ k ih =>
    have met : ∀ target, ∀ fi ∈ fis ++ [⟨p, target⟩],
        isAbs fi.path ∧ clean fi.path = fi.path :=
      fun target fi h => (List.mem_append.1 h).elim (fisPaths fi) fun h => by
        rw [List.mem_singleton.1 h]; exact pPath
    simp only [statChase]
    cases look p with
    | error e => exact fisPaths
    | ok target =>
      dsimp only
      split
      · exact met target
      · exact ih ⟨isAbs_linkDest dirAbs p target, clean_linkDest⟩ (met target)

/-- `VisitedPaths` of nodes at clean absolute paths: each path it returns is local, and joined
to the root they are the visited paths that lie in the root, in order. -/
theorem visitedPaths_spec (dirAbs : isAbs dir) (r : StatResult ε)
    (paths : ∀ fi ∈ visited r, isAbs fi.path ∧ clean fi.path = fi.path) :
    (∀ relPath ∈ visitedPaths dir r, isLocal relPath) ∧
      (visitedPaths dir r).map (join dir) =
        ((visited r).map Info.path).filter fun p => Within dir p := by
  unfold visitedPaths
  generalize visited r = fis at paths
  induction fis with
  | nil => simp
  | cons fi fis ih =>
    obtain ⟨fiAbs, fiClean⟩ := paths fi (.head _)
    obtain ⟨relPath, hrel, -, within, joins⟩ := rel_abs dirAbs fiAbs
    obtain ⟨locals, joined⟩ := ih fun fi' h => paths fi' (.tail _ h)
    rw [fiClean] at joins
    rw [List.filterMap_cons, hrel, List.map_cons, List.filter_cons]
    by_cases loc : isLocal relPath
    · simp only [loc, if_true, List.map_cons, joins, joined, decide_eq_true (within.1 loc)]
      exact ⟨List.forall_mem_cons.2 ⟨loc, locals⟩, trivial⟩
    · have outside : ¬Within dir fi.path := fun h => loc (within.2 h)
      simp only [loc, Bool.false_eq_true, if_false, joined, decide_eq_false outside]
      exact ⟨locals, trivial⟩

end Refine

/-- `FileSystem.Stat(name)`, over a `HashFS` that answers for a name by its path, visits exactly
the nodes met by following symlinks from the path the name stands for, each at its clean
absolute path, and fails exactly where that chase fails. -/
theorem stat_chase {ε : Type} {dir : List UInt8} (dirAbs : isAbs dir)
    (look : List UInt8 → Except ε (List UInt8)) (name : List UInt8) :
    (visited (stat dir (hashfsStat look) name), (stat dir (hashfsStat look) name).err) =
      statChase dir look name maxSymlinks (absPath dir name) [] :=
  statLoop_chase dirAbs look name maxSymlinks name []

/-- A tree under `/w`: `a` is a symlink to `b`, a directory, and nothing else exists. -/
def linkToB (p : List UInt8) : Except Unit (List UInt8) :=
  if p = str "/w/a" then .ok (str "b") else if p = str "/w/b" then .ok [] else .error ()

theorem stat_chase_linkToB :
    isAbs (str "/w") ∧
      (visited (stat (str "/w") (hashfsStat linkToB) (str "a")),
          (stat (str "/w") (hashfsStat linkToB) (str "a")).err) =
        statChase (str "/w") linkToB (str "a") maxSymlinks (absPath (str "/w") (str "a")) [] :=
  ⟨by decide, stat_chase (by decide) linkToB (str "a")⟩

example : visited (stat (str "/w") (hashfsStat linkToB) (str "a")) =
    [⟨str "/w/a", str "b"⟩, ⟨str "/w/b", []⟩] := by decide

/-- `VisitedPaths` after `Stat(name)`, over a `HashFS` that answers for a name by its path:
each path it returns is local to the root, and joined to the root they are the visited nodes
that lie in the root, in the order `Stat` met them. -/
theorem visitedPaths_stat {ε : Type} {dir : List UInt8} (dirAbs : isAbs dir)
    (look : List UInt8 → Except ε (List UInt8)) (name : List UInt8) :
    (∀ relPath ∈ visitedPaths dir (stat dir (hashfsStat look) name), isLocal relPath) ∧
      (visitedPaths dir (stat dir (hashfsStat look) name)).map (join dir) =
        ((visited (stat dir (hashfsStat look) name)).map Info.path).filter
          fun p => Within dir p := by
  refine visitedPaths_spec dirAbs _ ?_
  have chased := congrArg Prod.fst (statLoop_chase dirAbs look name maxSymlinks name [])
  dsimp only at chased
  rw [stat, chased]
  exact statChase_paths dirAbs look name maxSymlinks (absPath_abs_clean dirAbs name)
    fun _ h => absurd h (List.not_mem_nil _)

theorem visitedPaths_stat_linkToB :
    isAbs (str "/w") ∧
      (∀ relPath ∈ visitedPaths (str "/w") (stat (str "/w") (hashfsStat linkToB) (str "a")),
          isLocal relPath) ∧
        (visitedPaths (str "/w") (stat (str "/w") (hashfsStat linkToB) (str "a"))).map
            (join (str "/w")) =
          ((visited (stat (str "/w") (hashfsStat linkToB) (str "a"))).map Info.path).filter
            fun p => Within (str "/w") p :=
  ⟨by decide, visitedPaths_stat (by decide) linkToB (str "a")⟩

/-- The loop of `ReadFile` and `ReadDir`, over a `HashFS` that answers for a name by its path and
reports each symlink at an absolute path, returns what following symlinks from the path the name
stands for returns, with the `Op` and the name it was called with in its errors.
`ReadFile(name)` and `ReadDir(name)` are the loop from `maxSymlinks` rounds at `name`. -/
theorem readLoop_chase {ε α : Type} {dir : List UInt8} (dirAbs : isAbs dir)
    {read : List UInt8 → List UInt8 → Reply ε α} {res : List UInt8 → Reply ε α}
    (answers : ∀ root name, read root name = res (join root name))
    (linksAbs : ∀ p q target, res p = .symlink q target → isAbs q) (op pathname : List UInt8)
    (k : Nat) (name : List UInt8) :
    readLoop op dir read pathname k name =
      (readChase dir res k (absPath dir name)).mapError (PathError.mk op pathname) := by
  induction k generalizing name with
  | zero => rfl
  | succ k ih =>
    have asked : read (rootOf dir name) name = res (absPath dir name) := answers _ _
    simp only [readLoop, readChase, asked]
    cases reply : res (absPath dir name) with
    | ok a => rfl
    | symlink q target =>
      dsimp only
      rw [ih, absPath_resolveSymlinkPath dirAbs (linksAbs _ _ _ reply)]
    | error e => rfl

/-- `HashFS.ReadFile` over the tree of `linkToB`: the symlink at `/w/a` to `b`, and the
contents `x` of `/w/b`. -/
def readsLinkToB (p : List UInt8) : Reply Unit (List UInt8) :=
  if p = str "/w/a" then .symlink (str "/w/a") (str "b")
  else if p = str "/w/b" then .ok (str "x") else .error ()

theorem readsLinkToB_links_abs (p q target : List UInt8)
    (h : readsLinkToB p = .symlink q target) : isAbs q := by
  unfold readsLinkToB at h
  split_ifs at h
  cases h
  decide

theorem readLoop_chase_linkToB :
    (isAbs (str "/w") ∧
      (∀ root name, readsLinkToB (join root name) = readsLinkToB (join root name)) ∧
        ∀ p q target, readsLinkToB p = .symlink q target → isAbs q) ∧
      readLoop (str "readfile") (str "/w") (fun root name => readsLinkToB (join root name))
          (str "a") maxSymlinks (str "a") =
        (readChase (str "/w") readsLinkToB maxSymlinks (absPath (str "/w") (str "a"))).mapError
          (PathError.mk (str "readfile") (str "a")) :=
  ⟨⟨by decide, fun _ _ => rfl, readsLinkToB_links_abs⟩,
    readLoop_chase (by decide) (fun _ _ => rfl) readsLinkToB_links_abs _ _ _ _⟩

example : readFile (str "/w") (fun root name => readsLinkToB (join root name)) (str "a") =
    .ok (str "x") := rfl

end Siso.Hashfs
