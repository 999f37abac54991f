import Siso.Go.Clean

/-!
# `reapi.Option`: the RBE project, validity, and the API version gates

`UpdateProjectID` settles the cloud project of a Google RBE backend: a project given on the
command line is written into a bare instance name, one already in an instance `projects/P/...`
is read back from it, and with neither the option is made invalid by emptying its instance, so
that `CheckValid` rejects it.  The result here is that this holds for every option and every
project given, except for an instance that begins `projects/` with an empty project name, which
stays valid with no project.

`UseActionForPlatformProperties` and `UseOutputPaths` decide whether the server's API version is
new enough for a field that was new in 2.2 and 2.1.  They compare the major and the minor
version each on its own, where `NewFromConn` compares versions as pairs: they never use a field
an older server lacks, and they answer as the pair order does up to major version 2, but from
3.0 they refuse versions whose minor number is small although the version is newer.
-/

namespace Siso.Reapi

open Go Filepath

/-- `isGoogleRBE(address)`. -/
def isGoogleRBE (address : List UInt8) : Bool :=
  hasSuffix address (str "remotebuildexecution.googleapis.com:443") ||
    hasSuffix address (str "remotebuildexecution.sandbox.googleapis.com:443")

/-- The fields of `reapi.Option` that `UpdateProjectID` and `CheckValid` read: `Address` and
`Instance`. -/
structure ReapiOption where
  address : List UInt8
  inst : List UInt8
  deriving DecidableEq, Repr

/-- `path.Join(elem...)`: the non-empty elements joined by `/` and cleaned, or `""` when all are
empty.  Go joins an empty element after a non-empty one with a `/` too, which `Clean` drops. -/
def pathJoin (elems : List (List UInt8)) : List UInt8 :=
  let elems := elems.filter (· ≠ [])
  if elems = [] then [] else clean (joinWith elems slash)

/-- `"projects/"`. -/
def projectsPrefix : List UInt8 := str "projects/"

/-- `o.UpdateProjectID(projID)`: the project to use and the option after it; `none` where
`strings.Split(o.Instance, "/")[1]` is out of range and Go panics. -/
def ReapiOption.updateProjectID (o : ReapiOption) (projID : List UInt8) :
    Option (List UInt8 × ReapiOption) := do
  if !isGoogleRBE o.address then return ([], o)
  let o := if projID ≠ [] ∧ hasPrefix o.inst projectsPrefix = false then
      { o with inst := pathJoin [str "projects", projID, str "instances", o.inst] }
    else o
  let projID ← if projID = [] ∧ hasPrefix o.inst projectsPrefix = true then
      (split o.inst slash)[1]?
    else some projID
  let o := if projID = [] ∧ hasPrefix o.inst projectsPrefix = false then { o with inst := [] }
    else o
  return (projID, o)

/-- `o.CheckValid()`: the text of the error, `none` for `nil`. -/
def ReapiOption.checkValid (o : ReapiOption) : Option (List UInt8) :=
  if o.address = [] then some (str "no reapi address")
  else if isGoogleRBE o.address = true ∧ o.inst = [] then
    some (str "no reapi instance for Google RBE")
  else none

/-! ## `UpdateProjectID` -/

theorem ne_nil_of_isGoogleRBE {address : List UInt8} (rbe : isGoogleRBE address = true) :
    address ≠ [] := by
  rintro rfl
  revert rbe
  decide

/-- An option whose address and instance are not empty passes `CheckValid`. -/
theorem checkValid_of_ne_nil {o : ReapiOption} (address : o.address ≠ []) (inst : o.inst ≠ []) :
    o.checkValid = none := by
  simp [ReapiOption.checkValid, address, inst]

/-- An RBE option with an empty instance fails `CheckValid`. -/
theorem checkValid_of_inst_nil {o : ReapiOption} (rbe : isGoogleRBE o.address = true)
    (inst : o.inst = []) : o.checkValid ≠ none := by
  simp [ReapiOption.checkValid, ne_nil_of_isGoogleRBE rbe, rbe, inst]

theorem pathJoin_ne_nil {elems : List (List UInt8)} (nonEmpty : ∃ e ∈ elems, e ≠ []) :
    pathJoin elems ≠ [] := by
  obtain ⟨e, mem, ne⟩ := nonEmpty
  have kept : e ∈ elems.filter (· ≠ []) := List.mem_filter.2 ⟨mem, by simpa using ne⟩
  simp only [pathJoin]
  rw [if_neg (List.ne_nil_of_mem kept)]
  exact clean_ne_nil _

theorem split_projects (rest : List UInt8) :
    split (projectsPrefix ++ rest) slash = str "projects" :: split rest slash := rfl

/-- The first piece `strings.Split` cuts is the text up to the first separator. -/
theorem splitOnP_head (p : UInt8 → Bool) :
    ∀ l : List UInt8, ∃ tail, l.splitOnP p = l.takeWhile (fun a => !p a) :: tail
  | [] => ⟨[], rfl⟩
  | a :: l => by
    obtain ⟨tail, h⟩ := splitOnP_head p l
    by_cases pa : p a
    · exact ⟨l.splitOnP p, by simp [List.splitOnP_cons, pa]⟩
    · exact ⟨tail, by simp [List.splitOnP_cons, pa, h]⟩

/-- The project `UpdateProjectID` reads from an instance `projects/rest`: `rest` up to its first
`/`. -/
theorem split_projects_one (rest : List UInt8) :
    (split (projectsPrefix ++ rest) slash)[1]? = some (rest.takeWhile (· != slash)) := by
  obtain ⟨tail, h⟩ := splitOnP_head (· == slash) rest
  rw [split_projects, List.getElem?_cons_succ, split, List.splitOn, h, List.getElem?_cons_zero]
  rfl

theorem projects_append_ne_nil (rest : List UInt8) : projectsPrefix ++ rest ≠ [] :=
  List.append_ne_nil_of_left_ne_nil (by decide) rest

theorem hasPrefix_projects {inst : List UInt8} :
    hasPrefix inst projectsPrefix = true ↔ ∃ rest, inst = projectsPrefix ++ rest := by
  rw [hasPrefix_iff, List.IsPrefix]
  exact ⟨fun ⟨rest, h⟩ => ⟨rest, h.symm⟩, fun ⟨rest, h⟩ => ⟨rest, h.symm⟩⟩

/-- For a Google RBE backend and any project given, `UpdateProjectID` never panics and keeps the
address; when it returns a project the option passes `CheckValid`, and when it returns none the
option fails `CheckValid`, unless the instance begins `projects/` with an empty project name and
no project was given, which stays valid with no project. -/
theorem updateProjectID_valid (o : ReapiOption) (projID : List UInt8)
    (rbe : isGoogleRBE o.address = true) :
    ∃ p o', o.updateProjectID projID = some (p, o') ∧ o'.address = o.address ∧
      (p ≠ [] → o'.checkValid = none) ∧
      (p = [] → (o'.checkValid = none ↔ projID = [] ∧
        ∃ rest, o.inst = projectsPrefix ++ rest ∧ rest.takeWhile (· != slash) = [])) := by
  have address := ne_nil_of_isGoogleRBE rbe
  by_cases named : hasPrefix o.inst projectsPrefix = true
  · obtain ⟨rest, inst⟩ := hasPrefix_projects.1 named
    have valid := checkValid_of_ne_nil address (inst ▸ projects_append_ne_nil rest)
    by_cases given : projID = []
    · subst given
      have read := split_projects_one rest
      rw [← inst] at read
      refine ⟨_, o, by simp [ReapiOption.updateProjectID, rbe, named, read], rfl,
        fun _ => valid, fun empty => ⟨fun _ => ⟨rfl, rest, inst, empty⟩, fun _ => valid⟩⟩
    · exact ⟨projID, o, by simp [ReapiOption.updateProjectID, rbe, named, given], rfl,
        fun _ => valid, fun empty => absurd empty given⟩
  · have unnamed : ¬∃ rest, o.inst = projectsPrefix ++ rest := fun h =>
      named (hasPrefix_projects.2 h)
    by_cases given : projID = []
    · subst given
      refine ⟨[], { o with inst := [] }, by simp [ReapiOption.updateProjectID, rbe, named], rfl,
        fun h => absurd rfl h, fun _ => ⟨fun valid => absurd valid
          (checkValid_of_inst_nil (o := { o with inst := [] }) rbe rfl), ?_⟩⟩
      rintro ⟨-, rest, inst, -⟩
      exact absurd ⟨rest, inst⟩ unnamed
    · have joined : pathJoin [str "projects", projID, str "instances", o.inst] ≠ [] :=
        pathJoin_ne_nil ⟨_, List.mem_cons_self _ _, by decide⟩
      exact ⟨projID, { o with inst := pathJoin [str "projects", projID, str "instances", o.inst] },
        by simp [ReapiOption.updateProjectID, rbe, named, given], rfl,
        fun _ => checkValid_of_ne_nil address joined, fun empty => absurd empty given⟩

/-- `UpdateProjectID` with no project on an instance `projects/` keeps it, valid, with no
project. -/
theorem updateProjectID_valid_emptyProject :
    isGoogleRBE (str "rbe-remotebuildexecution.googleapis.com:443") = true ∧
    ∃ p o', (ReapiOption.mk (str "rbe-remotebuildexecution.googleapis.com:443")
        (str "projects/")).updateProjectID [] = some (p, o') ∧
      o'.address = str "rbe-remotebuildexecution.googleapis.com:443" ∧
      (p ≠ [] → o'.checkValid = none) ∧
      (p = [] → (o'.checkValid = none ↔ ([] : List UInt8) = [] ∧
        ∃ rest, str "projects/" = projectsPrefix ++ rest ∧ rest.takeWhile (· != slash) = [])) :=
  ⟨by decide, updateProjectID_valid _ [] (by decide)⟩

/-! ## API version gates -/

/-- `semverpb.SemVer`: its major and minor version, `int32`s. -/
structure SemVer where
  major : Int
  minor : Int
  deriving DecidableEq, Repr

/-- `v.GetMajor()`, `0` for a `nil` version. -/
def getMajor (v : Option SemVer) : Int := (v.map SemVer.major).getD 0

/-- `v.GetMinor()`, `0` for a `nil` version. -/
def getMinor (v : Option SemVer) : Int := (v.map SemVer.minor).getD 0

/-- `v.GetMajor() < major || (v.GetMajor() == major && v.GetMinor() < minor)`: how `NewFromConn`
tells that the server's version `v` is lower than the version `major.minor` asked for. -/
def lowerThan (v : Option SemVer) (major minor : Int) : Bool :=
  getMajor v < major || (getMajor v == major && getMinor v < minor)

/-- `apiVer.GetMajor() >= 2 && apiVer.GetMinor() >= minor`, the gate of a field new in
`2.minor`. -/
def newInTwo (minor : Int) (v : Option SemVer) : Bool := 2 ≤ getMajor v && minor ≤ getMinor v

/-- `UseActionForPlatformProperties(apiVer)`: `Action.platform` is new in 2.2. -/
def useActionForPlatformProperties (v : Option SemVer) : Bool := newInTwo 2 v

/-- `UseOutputPaths(apiVer)`: `Command.output_paths` is new in 2.1. -/
def useOutputPaths (v : Option SemVer) : Bool := newInTwo 1 v

/-- The gate of a field new in `2.minor` opens only for a version not lower than `2.minor`; it
opens for every such version up to major version 2, and for none whose minor number is below
`minor` from major version 3 on. -/
theorem newInTwo_spec (minor : Int) (v : Option SemVer) :
    (newInTwo minor v = true → lowerThan v 2 minor = false) ∧
      (getMajor v ≤ 2 → lowerThan v 2 minor = false → newInTwo minor v = true) ∧
      (2 < getMajor v → getMinor v < minor →
        lowerThan v 2 minor = false ∧ newInTwo minor v = false) := by
  simp only [newInTwo, lowerThan, Bool.and_eq_true, decide_eq_true_eq, Bool.or_eq_false_iff,
    decide_eq_false_iff_not, Bool.and_eq_false_imp, beq_iff_eq, not_lt]
  refine ⟨fun _ => ?_, fun _ _ => ?_, fun _ _ => ?_⟩ <;> omega

/-- `UseActionForPlatformProperties` and `UseOutputPaths` never use a field on a server whose
version `NewFromConn` would count as lower than 2.2 or 2.1; up to major version 2 they use it
on every server that is not lower; from major version 3 on they refuse a server whose minor
version is below 2 or 1, although it is not lower. -/
theorem version_gates (v : Option SemVer) :
    (useActionForPlatformProperties v = true → lowerThan v 2 2 = false) ∧
      (useOutputPaths v = true → lowerThan v 2 1 = false) ∧
      (getMajor v ≤ 2 → (lowerThan v 2 2 = false → useActionForPlatformProperties v = true) ∧
        (lowerThan v 2 1 = false → useOutputPaths v = true)) ∧
      (2 < getMajor v → lowerThan v 2 2 = false ∧ lowerThan v 2 1 = false ∧
        (getMinor v < 2 → useActionForPlatformProperties v = false) ∧
        (getMinor v < 1 → useOutputPaths v = false)) := by
  obtain ⟨sound2, complete2, newer2⟩ := newInTwo_spec 2 v
  obtain ⟨sound1, complete1, newer1⟩ := newInTwo_spec 1 v
  refine ⟨sound2, sound1, fun atMost => ⟨complete2 atMost, complete1 atMost⟩,
    fun above => ⟨?_, ?_, fun below => (newer2 above below).2, fun below => (newer1 above below).2⟩⟩
  all_goals simp only [lowerThan, Bool.or_eq_false_iff, decide_eq_false_iff_not,
    Bool.and_eq_false_imp, beq_iff_eq]
  all_goals omega

/-- Version 3.0 is not lower than 2.2, yet neither gate opens for it. -/
example : lowerThan (some ⟨3, 0⟩) 2 2 = false ∧
    useActionForPlatformProperties (some ⟨3, 0⟩) = false ∧
    useOutputPaths (some ⟨3, 0⟩) = false := by decide

end Siso.Reapi
