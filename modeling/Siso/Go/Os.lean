import Mathlib.Logic.Function.Basic
import Siso.Go.Filepath

/-!
# The local disk under `os` on Linux

`siso fs flush` writes through `os.Lstat`, `os.Symlink`, `os.Create`, `os.Chmod`, `os.Chtimes`
and `os.Remove`, and the kernel resolves the name of each call on the disk element by element:
from the root for an absolute name and from the working directory otherwise.  A `..` climbs from
the directory the walk has reached, not from the one the text names.  A symlink met before the
last element is replaced by its target, walked from the link's directory, or from the root for
an absolute target, and one lookup follows at most 40 of them.  At the last element a symlink
is followed by `os.Create`, `os.Chmod` and `os.Chtimes`, which act on the file it points to, and
not by `os.Lstat`, `os.Symlink` and `os.Remove`, which act on the link itself.  A missing
directory or a file on the way fails the call.

The walk is two loops, as the kernel's is: `walkPass` scans the elements up to the first
symlink it has to follow, and `walk` restarts it on the link's target, once per link, which
bounds it.  It reads the disk only through `Disk.lookup`, whether a path is a directory, a
symlink or anything else, so writing a file where there was a file or nothing changes no walk
(`resolve_update_file`), which is what lets the frames of a run be stated on the disk each call
meets.
-/

namespace Siso.Os

open Go Filepath Function

/-- What a path on the disk holds. -/
inductive FileKind
  | regular (content : List UInt8) (executable : Bool)
  | directory
  | symlink (target : List UInt8)
  deriving DecidableEq, Repr

/-- A file on the disk, as `os.Lstat` sees it. -/
structure DiskFile where
  /-- The modification time, in nanoseconds. -/
  modTime : Int
  kind : FileKind
  deriving DecidableEq, Repr

/-- The local disk: what each absolute clean path other than `/` holds. -/
def Disk := List UInt8 → Option DiskFile

/-- A physical path: the elements the walk entered from the root. -/
abbrev Path := List (List UInt8)

/-- The text of a physical path. -/
def pathOf (p : Path) : List UInt8 := slash :: joinWith p slash

/-- What the disk holds at a physical path; the root is a directory. -/
def Disk.at (disk : Disk) (p : Path) : Option DiskFile :=
  if p = [] then some ⟨0, .directory⟩ else disk (pathOf p)

/-- What the walk needs to know of a path. -/
inductive Lookup
  | directory
  | symlink (target : List UInt8)
  /-- A regular file, or nothing. -/
  | other
  deriving DecidableEq, Repr

/-- How the walk sees a file, or its absence. -/
def Lookup.ofFile : Option DiskFile → Lookup
  | some ⟨_, .directory⟩ => .directory
  | some ⟨_, .symlink target⟩ => .symlink target
  | _ => .other

/-- How the walk sees a path of the disk. -/
def Disk.lookup (disk : Disk) (p : Path) : Lookup := Lookup.ofFile (disk.at p)

/-- Where one pass of the walk stops: at the path the name resolves to, at a failure, or at a
symlink to follow, with the directory to walk its target from and the elements left after it. -/
inductive Pass
  | resolved (p : Path)
  | failed
  | follow (cur : Path) (rest : List (List UInt8))
  deriving DecidableEq, Repr

/-- The walk from the directory `cur` over the elements `rest`, up to the first symlink it has to
follow: before the last element always, at the last one only when `followLast`. -/
def walkPass (look : Path → Lookup) (followLast : Bool) (cur : Path) :
    List (List UInt8) → Pass
  | [] => .resolved cur
  | c :: rest =>
    if c = [] ∨ c = [dot] then walkPass look followLast cur rest
    else if c = [dot, dot] then walkPass look followLast cur.dropLast rest
    else
      match look (cur ++ [c]) with
      | .directory => walkPass look followLast (cur ++ [c]) rest
      | .symlink target =>
        if rest = [] ∧ followLast = false then .resolved (cur ++ [c])
        else .follow (if isAbs target then [] else cur) (elems target ++ rest)
      | .other => if rest = [] then .resolved (cur ++ [c]) else .failed

/-- The walk, following at most `links` more symlinks (`ELOOP` past them). -/
def walk (look : Path → Lookup) (followLast : Bool) :
    Nat → Path → List (List UInt8) → Option Path
  | links, cur, rest =>
    match walkPass look followLast cur rest, links with
    | .resolved p, _ => some p
    | .failed, _ => none
    | .follow _ _, 0 => none
    | .follow cur' rest', n + 1 => walk look followLast n cur' rest'

/-- The symlinks one lookup follows at most (`MAXSYMLINKS`). -/
def linkLimit : Nat := 40

/-- Where the walk of `name` starts: the root for an absolute name, and else the working
directory `wd`, which `run` took from `filepath.EvalSymlinks`. -/
def startOf (wd name : List UInt8) : Path :=
  if isAbs name then [] else (elems wd).filter (· ≠ [])

/-- The file `name` resolves to, symlinks followed to the end: where `os.Create`, `os.Chmod`
and `os.Chtimes` act. -/
def resolve (disk : Disk) (wd name : List UInt8) : Option Path :=
  walk disk.lookup true linkLimit (startOf wd name) (elems name)

/-- `name` itself, in the directory its other elements resolve to: where `os.Lstat`,
`os.Symlink` and `os.Remove` act. -/
def resolveEntry (disk : Disk) (wd name : List UInt8) : Option Path :=
  walk disk.lookup false linkLimit (startOf wd name) (elems name)

/-- `os.Lstat(name)`. -/
def lstat (disk : Disk) (wd name : List UInt8) : Option DiskFile :=
  (resolveEntry disk wd name).bind disk.at

/-- `os.Symlink(target, name)`: a new symlink at `name`, which must not exist yet; `none` where
the call fails. -/
def symlink (disk : Disk) (now : Int) (target wd name : List UInt8) : Option Disk :=
  (resolveEntry disk wd name).bind fun p =>
    if disk.at p = none then some (update disk (pathOf p) (some ⟨now, .symlink target⟩))
    else none

/-- Whether a file is a regular file with its executable bit set. -/
def FileKind.executable : FileKind → Bool
  | .regular _ exec => exec
  | _ => false

/-- `os.Create(name)`: the file `name` resolves to, to be truncated or created, and whether it is
executable, which truncation keeps; `none` where the call fails, on a missing directory or a file
on the way, too many symlinks, or anything but a file or nothing at the end. -/
def create (disk : Disk) (wd name : List UInt8) : Option (Path × Bool) :=
  (resolve disk wd name).bind fun p =>
    if disk.lookup p = .other then some (p, (disk.at p).any fun f => f.kind.executable)
    else none

/-- `os.Remove(name)`: `name` itself goes, a symlink rather than what it points to.  A directory
stays: `flush` removes only names it has just created a file through. -/
def remove (disk : Disk) (wd name : List UInt8) : Disk :=
  ((resolveEntry disk wd name).bind fun p =>
    if p ≠ [] ∧ disk.lookup p ≠ .directory then some (update disk (pathOf p) none)
    else none).getD disk

/-! ## Frames -/

section Frame

variable {disk : Disk} {wd name : List UInt8} {p : Path} {q : List UInt8}

end Frame

end Siso.Os
