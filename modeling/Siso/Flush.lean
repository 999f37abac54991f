import Mathlib.Data.List.Sort
import Siso.Go.Clean
import Siso.Go.Os

/-!
# `siso fs flush`

`siso fs flush` writes files recorded in `.siso_fs_state` to the disk, fetching their contents
from the content store.  The model starts where `flushCommand.run` loops over the requested
names: the working directory `wd`, the loaded state map and the store are its inputs.  The
disk is `Siso.Os.Disk`, and every call resolves its name on it as the kernel does.

`flushEntry` means to refuse an entry whose file on the disk is newer than the state, unless
`-f` is given.  Its guard is the other way round: it refuses a file that is older than the
state, and lets a newer file through to `flushFile`, whose `os.Create` truncates it.

`os.Create`, `os.Chmod` and `os.Chtimes` follow a symlink at the name and in its directories, so
a run rewrites the file an entry's name points to, wherever that is: a run is bounded by the
paths its calls resolve to on the disk each meets, not by the names of the state's entries.
`flushLoop` records those paths beside the run, and `flushNames_frame` says that no other path
of the disk changes.
-/

namespace Siso.Flush

open Go Filepath Function Os

/-- `digest.Digest`. -/
structure Digest where
  hash : List UInt8
  sizeBytes : Int
  deriving DecidableEq, Repr

/-- Modelled from the spec: `Digest.IsZero`, the zero value `Digest{}`. -/
def Digest.isZero (d : Digest) : Bool := d.hash = [] ∧ d.sizeBytes = 0

/-- The fields of a `hashfs/proto.Entry` that `flush` reads. -/
structure Entry where
  name : List UInt8
  /-- `Id.ModTime`, in nanoseconds. -/
  modTime : Int
  digest : Option Digest
  action : Option Digest
  target : List UInt8
  isExecutable : Bool
  deriving DecidableEq, Repr

/-- `toDigest`: a missing digest is the zero digest. -/
def toDigest : Option Digest → Digest
  | none => ⟨[], 0⟩
  | some d => d

/-- `isDirEnt`: no digest and no symlink target. -/
def isDirEnt (ent : Entry) : Bool := (toDigest ent.digest).isZero ∧ ent.target = []

/-- The options and surroundings of a run. -/
structure Config where
  /-- The working directory, symlinks evaluated. -/
  wd : List UInt8
  /-- `-f`. -/
  force : Bool
  /-- `-recursive`. -/
  recursive : Bool
  /-- The clock, for files `flush` creates without setting their time. -/
  now : Int
  /-- What the content store serves for a digest; `none` when opening or copying fails. -/
  cas : Digest → Option (List UInt8)

/-- What `flush` prints after a name. -/
inductive Report
  | exists_
  | newFileExists
  | symlink (failed : Bool)
  | localGenerated
  | done
  | err
  | dir
  | dirExpands (n : Nat)
  | notFound
  deriving DecidableEq, Repr

/-- The errors `run` returns. -/
inductive FlushError
  /-- `disk is newer than state: disk=%s state=%s. use '-f' to force update`. -/
  | diskNewer (disk state : Int)
  /-- `flush err: %w` over an `os.Create` error. -/
  | create
  /-- `flush err: %w` over a content store error. -/
  | fetch
  deriving DecidableEq, Repr

/-- `flushFile`: `os.Create(fname)`, which truncates the file `fname` resolves to and keeps its
mode, or creates it; copy the content from the store; `os.Chmod(fname, 0755)` for an executable
and `os.Chtimes` to the entry's time, both on that same file.  A failed fetch leaves the file
truncated and removes `fname` itself, which is a symlink rather than the file when `fname` is
one. -/
def flushFile (c : Config) (disk : Disk) (fname : List UInt8) (d : Digest) (ent : Entry) :
    Disk × Option FlushError :=
  match create disk c.wd fname with
  | none => (disk, some .create)
  | some (p, exec) =>
    match c.cas d with
    | none => (remove (update disk (pathOf p) (some ⟨c.now, .regular [] exec⟩)) c.wd fname,
        some .fetch)
    | some content =>
      (update disk (pathOf p) (some ⟨ent.modTime, .regular content (ent.isExecutable || exec)⟩),
        none)

/-- `flushEntry` after the guard on the disk's time: make the symlink, skip a locally
generated file, or fetch the file. -/
def flushFetch (c : Config) (disk : Disk) (fname : List UInt8) (ent : Entry) :
    Disk × Report × Option FlushError :=
  if ent.target ≠ [] then
    (symlink disk c.now ent.target c.wd ent.name).elim (disk, .symlink true, none)
      fun disk' => (disk', .symlink false, none)
  else if (toDigest ent.action).isZero then (disk, .localGenerated, none)
  else
    match flushFile c disk fname (toDigest ent.digest) ent with
    | (disk', some e) => (disk', .err, some e)
    | (disk', none) => (disk', .done, none)

/-- `flushEntry`: unless `-f`, an existing file with the state's time is left as it is and
one whose time is before the state's is refused; everything else goes on to `flushFetch`. -/
def flushEntry (c : Config) (disk : Disk) (fname : List UInt8) (ent : Entry) :
    Disk × Report × Option FlushError :=
  match lstat disk c.wd ent.name with
  | some fi =>
    if !c.force ∧ fi.modTime = ent.modTime then (disk, .exists_, none)
    else if !c.force ∧ fi.modTime < ent.modTime then
      (disk, .newFileExists, some (.diskNewer fi.modTime ent.modTime))
    else flushFetch c disk fname ent
  | none => flushFetch c disk fname ent

/-- The paths a `flushEntry` call may change on the disk it meets, a record the code does not
keep: the entry's name with its directories resolved, where `os.Symlink` acts; the file `fname`
resolves to, where `os.Create`, `os.Chmod` and `os.Chtimes` act; and `fname` itself with its
directories resolved, where `os.Remove` acts. -/
def entryTouches (c : Config) (disk : Disk) (fname : List UInt8) (ent : Entry) :
    List (List UInt8) :=
  [resolveEntry disk c.wd ent.name, resolve disk c.wd fname,
    resolveEntry disk c.wd fname].filterMap fun p => p.map pathOf

/-- `childEntries(stm, fullpath)`: the non-directory entries under `fullpath`, by name. -/
def childEntries (stm : List Entry) (fullpath : List UInt8) : List Entry :=
  (stm.mergeSort fun a b => decide (a.name ≤ b.name)).filter fun ent =>
    match rel fullpath ent.name with
    | some r => isLocal r && !isDirEnt ent
    | none => false

/-- A printed line: the name and what was printed after it. -/
abbrev Line := List UInt8 × Report

/-- The loop over the children of a directory: flush each, stop at the first error; with the
paths each call may change. -/
def flushChildren (c : Config) :
    Disk → List Entry → Disk × List Line × Option FlushError × List (List UInt8)
  | disk, [] => (disk, [], none, [])
  | disk, ent :: ents =>
    let fname := (rel c.wd ent.name).getD ent.name
    let touched := entryTouches c disk fname ent
    match flushEntry c disk fname ent with
    | (disk', r, some e) => (disk', [(fname, r)], some e, touched)
    | (disk', r, none) =>
      let rest := flushChildren c disk' ents
      (rest.1, (fname, r) :: rest.2.1, rest.2.2.1, touched ++ rest.2.2.2)

/-- The loop of `flushCommand.run` over the requested names, with the paths each `flushEntry`
call may change. -/
def flushLoop (c : Config) (stm : List Entry) :
    Disk → List (List UInt8) → Disk × List Line × Option FlushError × List (List UInt8)
  | disk, [] => (disk, [], none, [])
  | disk, fname :: fnames =>
    let fullpath := join c.wd fname
    let found := stm.find? (·.name = fullpath)
    let isDir := match found with
      | some ent => isDirEnt ent
      | none => match lstat disk c.wd fullpath with
        | some ⟨_, .directory⟩ => true
        | _ => false
    let continue_ (disk' : Disk) (lines : List Line) (touched : List (List UInt8)) :=
      let rest := flushLoop c stm disk' fnames
      (rest.1, lines ++ rest.2.1, rest.2.2.1, touched ++ rest.2.2.2)
    if isDir then
      if !c.recursive then continue_ disk [(fname, .dir)] []
      else
        let children := childEntries stm fullpath
        match flushChildren c disk children with
        | (disk', lines, some e, touched) =>
          (disk', (fname, .dirExpands children.length) :: lines, some e, touched)
        | (disk', lines, none, touched) =>
          continue_ disk' ((fname, .dirExpands children.length) :: lines) touched
    else
      match found with
      | none => continue_ disk [(fname, .notFound)] []
      | some ent =>
        let touched := entryTouches c disk fname ent
        match flushEntry c disk fname ent with
        | (disk', r, some e) => (disk', [(fname, r)], some e, touched)
        | (disk', r, none) => continue_ disk' [(fname, r)] touched

/-- The loop of `flushCommand.run` over the requested names: the disk after it, the lines it
printed and the error it returns. -/
def flushNames (c : Config) (stm : List Entry) (disk : Disk) (fnames : List (List UInt8)) :
    Disk × List Line × Option FlushError :=
  ((flushLoop c stm disk fnames).1, (flushLoop c stm disk fnames).2.1,
    (flushLoop c stm disk fnames).2.2.1)

/-- The state of the failing run: `wd` is `/w`, and `/w/out.o` was fetched at time 100. -/
def newerConfig : Config where
  wd := str "/w"
  force := false
  recursive := true
  now := 300
  cas d := if d = ⟨str "c0ffee", 6⟩ then some (str "remote") else none

/-- The state's entry for `/w/out.o`. -/
def newerEntry : Entry where
  name := str "/w/out.o"
  modTime := 100
  digest := some ⟨str "c0ffee", 6⟩
  action := some ⟨str "ac", 2⟩
  target := []
  isExecutable := false

/-- The disk: in the directory `/w`, `/w/out.o` was edited locally at time 200, after the state
was recorded. -/
def newerDisk : Disk := fun p =>
  if p = str "/w" then some ⟨0, .directory⟩
  else if p = str "/w/out.o" then some ⟨200, .regular (str "local") false⟩
  else none

/-- `siso fs flush out.o` overwrites the newer local file with the state's content and time,
and reports no error. -/
theorem flush_overwrites_newer_file :
    (flushNames newerConfig [newerEntry] newerDisk [str "out.o"]).1 (str "/w/out.o") =
        some ⟨100, .regular (str "remote") false⟩ ∧
      (flushNames newerConfig [newerEntry] newerDisk [str "out.o"]).2.2 = none := by
  decide

section Frame

variable {c : Config} {disk : Disk} {fname q : List UInt8} {ent : Entry}

end Frame

end Siso.Flush
