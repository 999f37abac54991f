import Siso.Go.Clean

/-!
# `hashfs.FileSystem`: following symlinks

`FileSystem` is the `io/fs` view of a `HashFS` under the exec root `dir`.  Its `Stat`,
`ReadFile` and `ReadDir` follow a symlink with `resolveSymlinkPath`, which turns the link's
path and its target into a name relative to the root, or into an absolute name when the
target leaves the root.  `ExpandSymlinks` walks a name prefix by prefix, records each symlink
it meets and rewrites the name through it, until a pass meets none.

The rewrite is lexical: `filepath.Join` cleans the link's target joined to the link's
directory, so a `..` in the target cancels the element before it whatever that element is.
When that element is itself a symlink, the kernel climbs from where it points instead, and
`ExpandSymlinks` both misses that symlink and returns a name the walk never reaches.

`HashFS.Stat` is not in the repository's files, so it is a parameter here: the `Target` of the
`FileInfo` it returns for a name, empty for a file or directory, or `none` for an error.
`filepath.ToSlash` is the identity on Unix and is left out.

A symlink at the root itself (`path = "."`) is resolved against the root's parent only when
its target climbs out of the root: a target such as `private/tmp` is kept relative to the
root, so the link then names a path under the root instead of the root's sibling.
-/

namespace Siso.Hashfs

open Go Filepath

/-- `resolveSymlinkPath(root, path, target)`. -/
def resolveSymlinkPath (root path target : List UInt8) : List UInt8 :=
  let name :=
    if isAbs target then target
    else
      let name := join (dir path) target
      if !isAbs name && !isLocal name then
        if path = [dot] then join (dir root) name else join root name
      else name
  match rel root name with
  | some relPath => if isLocal relPath then relPath else name
  | none => name

/-- Where a symlink at `path` (relative to `root`, or absolute) with the given target points,
read as a target relative to the link's directory: the clean absolute path. -/
def linkDest (root path target : List UInt8) : List UInt8 :=
  let link := if isAbs path then path else join root path
  if isAbs target then clean target else clean (join (dir link) target)

/-- The root itself is a symlink to `private/tmp`, as `/tmp` is on macOS: `resolveSymlinkPath`
keeps the target relative to the root, which names `/tmp/private/tmp`, while the link points
to `/private/tmp`, outside the root. -/
theorem resolveSymlinkPath_root_link :
    resolveSymlinkPath (str "/tmp") (str ".") (str "private/tmp") = str "private/tmp" ∧
      join (str "/tmp") (str "private/tmp") = str "/tmp/private/tmp" ∧
      linkDest (str "/tmp") (str ".") (str "private/tmp") = str "/private/tmp" := by
  decide

/-- `r`, relative to `root` or absolute, names the clean absolute path `dest`, and is relative
exactly when `dest` is the root or lies under it. -/
def Denotes (root r dest : List UInt8) : Prop :=
  (isAbs r ∧ clean r = dest ∨ isLocal r ∧ join root r = dest) ∧
    (isAbs r = false ↔ Within root dest)

section Resolve

variable {root path target : List UInt8}

theorem clean_linkDest : clean (linkDest root path target) = linkDest root path target := by
  unfold linkDest; split <;> split <;> simp

/-- The last step of `resolveSymlinkPath` on an absolute name: `Rel` from the root when it is
local, else the name itself. -/
theorem denotes_of_rel {name relPath : List UInt8} (nameAbs : isAbs name)
    (within : isLocal relPath = true ↔ Within root name)
    (joins : join root relPath = clean name) :
    Denotes root (if isLocal relPath then relPath else name) (clean name) := by
  have same : Within root (clean name) ↔ Within root name := by simp [Within]
  unfold Denotes
  rw [same]
  by_cases rel : isLocal relPath
  · rw [if_pos rel]
    exact ⟨.inr ⟨rel, joins⟩, by simpa [isAbs_eq_false_of_isLocal rel] using within.1 rel⟩
  · rw [if_neg rel]
    exact ⟨.inl ⟨nameAbs, rfl⟩, by simpa [nameAbs] using fun h => rel (within.2 h)⟩

/-- An absolute target is resolved on its own. -/
theorem resolveSymlinkPath_abs_target (rootAbs : isAbs root) (targetAbs : isAbs target) :
    Denotes root (resolveSymlinkPath root path target) (linkDest root path target) := by
  obtain ⟨relPath, hrel, -, within, joins⟩ := rel_abs rootAbs targetAbs
  simp only [resolveSymlinkPath, linkDest, targetAbs, if_true, hrel]
  exact denotes_of_rel targetAbs within joins

/-- A relative target of a link at an absolute path is read from the link's directory. -/
theorem resolveSymlinkPath_abs_link (rootAbs : isAbs root) (pathAbs : isAbs path)
    (targetRel : isAbs target = false) :
    Denotes root (resolveSymlinkPath root path target) (linkDest root path target) := by
  have nameAbs : isAbs (join (dir path) target) := by
    rw [isAbs_join (dir_ne_nil path), isAbs_dir, pathAbs]
  obtain ⟨relPath, hrel, -, within, joins⟩ := rel_abs rootAbs nameAbs
  simp only [resolveSymlinkPath, linkDest, targetRel, pathAbs, nameAbs, hrel, if_true,
    Bool.false_eq_true, if_false, Bool.not_true, Bool.false_and]
  exact denotes_of_rel nameAbs within joins

/-- A relative target of a link at a local path other than the root: the name read from the
link's directory stays relative when it is local, and is joined to the root otherwise. -/
theorem resolveSymlinkPath_local_link (rootAbs : isAbs root) (pathLocal : isLocal path)
    (pathClean : clean path = path) (notRoot : path ≠ [dot]) (targetRel : isAbs target = false) :
    Denotes root (resolveSymlinkPath root path target) (linkDest root path target) := by
  have rootNe := ne_nil_of_isAbs rootAbs
  have pathRel := isAbs_eq_false_of_isLocal pathLocal
  obtain ⟨name, hname⟩ : ∃ name, join (dir path) target = name := ⟨_, rfl⟩
  have nameRel : isAbs name = false := by
    rw [← hname, isAbs_join (dir_ne_nil path), isAbs_dir, pathRel]
  -- the link points where the name read from its directory, joined to the root, does
  have dest : linkDest root path target = clean (join root name) := by
    simp only [linkDest, pathRel, targetRel, Bool.false_eq_true, if_false]
    rw [dir_join_local rootAbs pathLocal pathClean notRoot,
      ← join_join rootNe (dir_ne_nil path) (by rw [isAbs_dir, pathRel]), hname]
  rw [dest]
  by_cases nameLocal : isLocal name
  · -- a local name is kept relative to the root
    have hrel : rel root name = none := by
      have : clean name ≠ clean root := fun h => by
        simpa [isAbs_clean, nameRel, rootAbs] using congrArg isAbs h
      rw [rel, if_neg this, if_pos (by rw [rootAbs, nameRel]; decide)]
    simp only [resolveSymlinkPath, targetRel, hname, nameRel, nameLocal, hrel,
      Bool.false_eq_true, if_false, Bool.not_true, Bool.and_false]
    have nameClean : clean name = name := by
      rw [← hname]; exact clean_join (dir_ne_nil path) target
    refine ⟨.inr ⟨nameLocal, (clean_join rootNe name).symm⟩, ?_⟩
    rw [clean_join rootNe, nameRel]
    exact iff_of_true rfl (within_join_local rootNe nameLocal nameClean)
  · -- an escaping name is joined to the root and made relative to it again
    have nameAbs : isAbs (join root name) := by rw [isAbs_join rootNe, rootAbs]
    obtain ⟨relPath, hrel, -, within, joins⟩ := rel_abs rootAbs nameAbs
    simp only [resolveSymlinkPath, targetRel, hname, nameRel, nameLocal, notRoot, hrel,
      Bool.false_eq_true, if_false, Bool.not_false, Bool.and_self, if_true]
    exact denotes_of_rel nameAbs within joins

/-- A link at an absolute path, whatever its target. -/
theorem resolveSymlinkPath_abs (rootAbs : isAbs root) (pathAbs : isAbs path) :
    Denotes root (resolveSymlinkPath root path target) (linkDest root path target) := by
  cases targetAbs : isAbs target
  · exact resolveSymlinkPath_abs_link rootAbs pathAbs targetAbs
  · exact resolveSymlinkPath_abs_target rootAbs targetAbs

end Resolve

/-- For every link other than the root itself, at an absolute clean path or at a clean local
path, `resolveSymlinkPath` returns a path that names where the link points, relative to the
root exactly when that lies in the root. -/
theorem resolveSymlinkPath_denotes {root path target : List UInt8} (rootAbs : isAbs root)
    (link : isAbs path ∧ clean path = path ∨
      isLocal path ∧ clean path = path ∧ path ≠ [dot]) :
    Denotes root (resolveSymlinkPath root path target) (linkDest root path target) := by
  rcases link with ⟨pathAbs, -⟩ | ⟨pathLocal, pathClean, notRoot⟩
  · exact resolveSymlinkPath_abs rootAbs pathAbs
  · cases targetAbs : isAbs target
    · exact resolveSymlinkPath_local_link rootAbs pathLocal pathClean notRoot targetAbs
    · exact resolveSymlinkPath_abs_target rootAbs targetAbs

/-- A link `l` to `../x` in the root `/w` points out of it, to `/x`. -/
theorem resolveSymlinkPath_denotes_escaping :
    (isAbs (str "/w") ∧ (isAbs (str "l") ∧ clean (str "l") = str "l" ∨
        isLocal (str "l") ∧ clean (str "l") = str "l" ∧ str "l" ≠ [dot])) ∧
      Denotes (str "/w") (resolveSymlinkPath (str "/w") (str "l") (str "../x"))
        (linkDest (str "/w") (str "l") (str "../x")) :=
  ⟨⟨by decide, .inr ⟨by decide, by decide, by decide⟩⟩,
    resolveSymlinkPath_denotes (by decide) (.inr ⟨by decide, by decide, by decide⟩)⟩

/-- `maxSymlinks`. -/
def maxSymlinks : Nat := 40

/-- How one pass of the outer loop of `ExpandSymlinks` ends. -/
inductive Pass
  /-- The inner loop ran to its end: no prefix is a symlink. -/
  | resolved
  /-- `break resolve`, after recording the symlink the pass met, if any. -/
  | stopped (link : Option (List UInt8))
  /-- `continue resolve` with the name rewritten through the symlink `link`. -/
  | rewritten (link name : List UInt8)
  deriving DecidableEq, Repr

/-- The `i`-th name `ExpandSymlinks` stats for the elements `elems`: the first `i + 1` joined. -/
def prefixOf (elems : List (List UInt8)) (i : Nat) : List UInt8 :=
  joinWith (elems.take (i + 1)) slash

/-- The inner loop of `ExpandSymlinks` from index `i`, with `k` indices left. -/
def scan (stat : List UInt8 → Option (List UInt8)) (elems : List (List UInt8)) (i : Nat) :
    Nat → Pass
  | 0 => .resolved
  | k + 1 =>
    let pathname := prefixOf elems i
    match stat pathname with
    | none => .stopped none
    | some target =>
      if target ≠ [] then
        if isAbs target then .stopped (some pathname)
        else
          let targetPath := join (dir pathname) target
          if !isLocal targetPath then .stopped (some pathname)
          else .rewritten pathname (join targetPath (joinWith (elems.drop (i + 1)) slash))
      else scan stat elems (i + 1) k

/-- The outer loop of `ExpandSymlinks`, with `k` passes left and the symlinks recorded so far. -/
def expandLoop (stat : List UInt8 → Option (List UInt8)) :
    Nat → List UInt8 → List (List UInt8) → List (List UInt8)
  | 0, name, names => names ++ [name]
  | k + 1, name, names =>
    match scan stat (split name slash) 0 (split name slash).length with
    | .resolved => expandLoop stat k name names
    | .stopped none => names ++ [name]
    | .stopped (some link) => names ++ [link, name]
    | .rewritten link name' => expandLoop stat k name' (names ++ [link])

/-- `FileSystem.ExpandSymlinks(name)`. -/
def expandSymlinks (stat : List UInt8 → Option (List UInt8)) (name : List UInt8) :
    List (List UInt8) :=
  expandLoop stat maxSymlinks name []

/-- The component-wise resolution the kernel makes of a name under the root, with `HashFS.Stat`
looking each path up: from the directory `cur` (its elements under the root), with the
elements `rest` still to walk, it meets the symlinks `links`, each by its path from the root,
and ends at the directory or file `final`, inside the root.  A symlink's target is walked from
the link's directory, element by element, so a `..` after a symlink in the target climbs from
where that symlink points, not from its name. -/
inductive Walks (stat : List UInt8 → Option (List UInt8)) :
    List (List UInt8) → List (List UInt8) → List (List UInt8) → List UInt8 → Prop
  /-- Nothing is left to walk. -/
  | done {cur : List (List UInt8)} : Walks stat cur [] [] (joinWith cur slash)
  /-- An empty element or `.` stays where it is. -/
  | skip {cur rest links : List (List UInt8)} {c final : List UInt8} : (c = [] ∨ c = [dot]) →
    Walks stat cur rest links final → Walks stat cur (c :: rest) links final
  /-- `..` climbs to the parent, within the root. -/
  | up {cur rest links : List (List UInt8)} {final : List UInt8} : cur ≠ [] →
    Walks stat cur.dropLast rest links final → Walks stat cur ([dot, dot] :: rest) links final
  /-- A name that is a file or a directory is entered. -/
  | enter {cur rest links : List (List UInt8)} {c final : List UInt8} :
    c ≠ [] → c ≠ [dot] → c ≠ [dot, dot] → stat (joinWith (cur ++ [c]) slash) = some [] →
    Walks stat (cur ++ [c]) rest links final → Walks stat cur (c :: rest) links final
  /-- A name that is a symlink with a relative target is replaced by the target's elements,
  walked from the link's directory. -/
  | follow {cur rest links : List (List UInt8)} {c target final : List UInt8} :
    c ≠ [] → c ≠ [dot] → c ≠ [dot, dot] → stat (joinWith (cur ++ [c]) slash) = some target →
    target ≠ [] → isAbs target = false → Walks stat cur (split target slash ++ rest) links final →
    Walks stat cur (c :: rest) (joinWith (cur ++ [c]) slash :: links) final

/-- `name` resolves, element by element from the root, to `final` inside the root, through
the symlinks `links`. -/
def Resolves (stat : List UInt8 → Option (List UInt8)) (name : List UInt8)
    (links : List (List UInt8)) (final : List UInt8) : Prop :=
  Walks stat [] (split name slash) links final

/-- A tree where `a/l` links to `m/../n` and `a/m` links to `p/q`: the directories `a`, `a/p`
and `a/p/q`, the file `a/p/n`, and no `a/n`. -/
def linkThroughLink (pathname : List UInt8) : Option (List UInt8) :=
  if pathname = str "a/l" then some (str "m/../n")
  else if pathname = str "a/m" then some (str "p/q")
  else if pathname ∈ [str "a", str "a/p", str "a/p/q", str "a/p/n"] then some []
  else none

/-- `a/l` resolves through `a/l` and `a/m` to `a/p/n`: the `..` in `m/../n` climbs from
`a/p/q`, where `a/m` points.  `ExpandSymlinks` joins `m/../n` to `a` lexically, gets `a/n`, and
returns `a/l` and `a/n`: it misses the symlink `a/m` and ends at a name that does not exist. -/
theorem expandSymlinks_lexical_dotdot :
    Resolves linkThroughLink (str "a/l") [str "a/l", str "a/m"] (str "a/p/n") ∧
      expandSymlinks linkThroughLink (str "a/l") = [str "a/l", str "a/n"] ∧
      linkThroughLink (str "a/n") = none := by
  have l : linkThroughLink (str "a/l") = some (str "m/../n") := by decide
  have m : linkThroughLink (str "a/m") = some (str "p/q") := by decide
  refine ⟨?_, by decide, by decide⟩
  refine .enter (by decide) (by decide) (by decide) (by decide) ?_
  refine .follow (by decide) (by decide) (by decide) l (by decide) (by decide) ?_
  refine .follow (by decide) (by decide) (by decide) m (by decide) (by decide) ?_
  refine .enter (by decide) (by decide) (by decide) (by decide) ?_
  refine .enter (by decide) (by decide) (by decide) (by decide) ?_
  refine .up (by decide) ?_
  exact .enter (by decide) (by decide) (by decide) (by decide) .done

end Siso.Hashfs
