import Siso.Go.Filepath

/-!
# `ExtractScanDepsParams` of `gccutil` and `msvcutil`

Both packages walk a compiler command line with one loop: an index `i` over `args`, two
`switch` statements per argument, and `@rspfile` arguments whose words are spliced into `args`
after the current position.  The two loops differ only in their tables of flags, so they are
one definition here, `extract`, over a `Dialect`; `Gccutil.extractScanDepsParams` and
`Msvcutil.extractScanDepsParams` are it applied to their own tables.  The model is the code
as it runs on Linux: `filepath.ToSlash` is the identity and `msvcutil` splits with
`shutil.Split`.

`shutil.Split` and `fs.ReadFile` are not in the repository's files, so they are parameters:
`split` returns the words of a text or `none` for an error, and `fsys` the contents of a file
or `none`.  A flag whose operand is the next argument reads `args[i]` after `i++` without a
bound check, which panics at the end of `args`; the outcome `indexOutOfRange` is that panic.
The loop runs on fuel, one unit per iteration, and `none` is fuel run out: the loop has no
bound of its own, since a response file may name itself.
-/

namespace Siso.Toolsupport

open Go Filepath

/-- `'@'`. -/
def at_ : UInt8 := 64

/-- `'='`. -/
def eq_ : UInt8 := 61

/-- The lists of `ScanDepsParams` an argument can add to. -/
inductive Slot
  | sources
  | includes
  | files
  | dirs
  | frameworks
  | sysroots
  | defines
  deriving DecidableEq, Repr

/-- `ScanDepsParams`, the same in `gccutil` and `msvcutil`.  `Defines` is the map as the list of
its entries, the latest assignment first. -/
structure ScanDepsParams where
  sources : List (List UInt8) := []
  includes : List (List UInt8) := []
  files : List (List UInt8) := []
  dirs : List (List UInt8) := []
  frameworks : List (List UInt8) := []
  sysroots : List (List UInt8) := []
  defines : List (List UInt8 × List UInt8) := []
  deriving DecidableEq, Repr

/-- `defineMacro(defines, arg)`: `-D NAME=<path.h>` and `-D NAME="path.h"` are recorded, other
definitions are not. -/
def defineMacro (defines : List (List UInt8 × List UInt8)) (arg : List UInt8) :
    List (List UInt8 × List UInt8) :=
  let (key, value, ok) := cut arg eq_
  if !ok then defines
  else
    match value with
    | [] => defines
    | c :: _ => if c = 60 ∨ c = 34 then (key, value) :: defines.filter (·.1 ≠ key) else defines

/-- Add `value` to a list of `res`, or record it as a definition. -/
def ScanDepsParams.add (res : ScanDepsParams) : Slot → List UInt8 → ScanDepsParams
  | .sources, v => { res with sources := res.sources ++ [v] }
  | .includes, v => { res with includes := res.includes ++ [v] }
  | .files, v => { res with files := res.files ++ [v] }
  | .dirs, v => { res with dirs := res.dirs ++ [v] }
  | .frameworks, v => { res with frameworks := res.frameworks ++ [v] }
  | .sysroots, v => { res with sysroots := res.sysroots ++ [v] }
  | .defines, v => { res with defines := defineMacro res.defines v }

/-- What an arm of the second `switch` does with the argument after its prefix. -/
inductive Arm
  /-- Add it to a list. -/
  | add (slot : Slot)
  /-- `-fmodule-file=[name=]path`: add the path to `Files`. -/
  | moduleFile
  deriving DecidableEq, Repr

/-- The tables that tell the two `ExtractScanDepsParams` apart. -/
structure Dialect where
  /-- What an argument that does not start with `-` becomes before the switches. -/
  prepare : List UInt8 → List UInt8
  /-- Whether an argument that does not start with `-` names a compiler, whose toolchain top
  directory is added to `Sysroots`. -/
  isCompiler : List UInt8 → Bool
  /-- The first `switch`: the flags whose operand is the next argument, the list it goes to,
  and whether the arm ends in `continue`. -/
  separate : List UInt8 → Option (Slot × Bool)
  /-- The prefix arms of the second `switch` after `@`, in order. -/
  arms : List (List UInt8 × Arm)
  /-- The last arm of the second `switch`: a source file. -/
  isSource : List UInt8 → Bool

/-- The errors `ExtractScanDepsParams` returns. -/
inductive ExtractError
  /-- `failed to normalize args: unsupported commandline. no PWD=/proc/self/cwd prefix`. -/
  | noPwdPrefix
  /-- `failed to normalize args: failed to split %q`. -/
  | normalizeSplit (arg : List UInt8)
  /-- `failed to read @%q`. -/
  | read (rspfile : List UInt8)
  /-- `failed to split @%q`. -/
  | split (rspfile : List UInt8)
  deriving DecidableEq, Repr

/-- How `ExtractScanDepsParams` ends. -/
inductive Outcome
  /-- The parameters and a `nil` error. -/
  | ok (res : ScanDepsParams)
  /-- The parameters gathered so far and an error. -/
  | error (res : ScanDepsParams) (err : ExtractError)
  /-- The runtime panic `index out of range [index] with length length`. -/
  | indexOutOfRange (index length : Nat)
  deriving DecidableEq, Repr

/-- Where one iteration of the loop leaves it. -/
inductive Next
  /-- The next iteration, at index `i`, over `args`. -/
  | next (args : List (List UInt8)) (i : Nat) (res : ScanDepsParams)
  /-- The function returns, or panics. -/
  | stop (o : Outcome)
  deriving DecidableEq, Repr

section Loop

variable (d : Dialect) (fsys : List UInt8 → Option (List UInt8))
  (split : List UInt8 → Option (List (List UInt8)))

/-- The second `switch` on `arg`, at index `i` (already advanced past an operand if the first
`switch` read one), and the loop's `i++`. -/
def secondSwitch (args : List (List UInt8)) (i : Nat) (res : ScanDepsParams) (arg : List UInt8) :
    Next :=
  if hasPrefix arg [at_] then
    let rspfile := trimPrefix arg [at_]
    let res := res.add .files rspfile
    match fsys rspfile with
    | none => .stop (.error res (.read rspfile))
    | some buf =>
      match split buf with
      | none => .stop (.error res (.split rspfile))
      | some rspArgs => .next (args.take (i + 1) ++ rspArgs ++ args.drop (i + 1)) (i + 1) res
  else
    let res := match d.arms.find? (fun a => hasPrefix arg a.1) with
      | some (pre, .add slot) => res.add slot (trimPrefix arg pre)
      | some (pre, .moduleFile) =>
        let moduleFile := trimPrefix arg pre
        let (_, after, found) := cut moduleFile eq_
        res.add .files (if found then after else moduleFile)
      | none => if d.isSource arg then res.add .sources arg else res
    .next args (i + 1) res

/-- One iteration of the loop, on `args[i]`. -/
def step (args : List (List UInt8)) (i : Nat) (res : ScanDepsParams) (arg : List UInt8) : Next :=
  let dash := hasPrefix arg (str "-")
  let arg := if dash then arg else d.prepare arg
  let res := if !dash && d.isCompiler arg then res.add .sysroots (dir (dir arg)) else res
  match d.separate arg with
  | some (slot, continue_) =>
    match args[i + 1]? with
    | none => .stop (.indexOutOfRange (i + 1) args.length)
    | some operand =>
      let res := res.add slot operand
      if continue_ then .next args (i + 2) res else secondSwitch d fsys split args (i + 1) res arg
  | none => secondSwitch d fsys split args i res arg

/-- The loop `for i := 0; i < len(args); i++`, with `fuel` iterations left. -/
def loop : Nat → List (List UInt8) → Nat → ScanDepsParams → Option Outcome
  | 0, _, _, _ => none
  | fuel + 1, args, i, res =>
    match args[i]? with
    | none => some (.ok res)
    | some arg =>
      match step d fsys split args i res arg with
      | .next args i res => loop fuel args i res
      | .stop o => some o

variable {d fsys split}

/-- An argument that is not a flag goes to the second `switch` as `prepare` leaves it, when that
names no compiler and takes no operand. -/
theorem step_of_plain {args : List (List UInt8)} {i : Nat} {res : ScanDepsParams}
    {arg : List UInt8} (noDash : hasPrefix arg (str "-") = false)
    (notCompiler : d.isCompiler (d.prepare arg) = false)
    (noOperand : d.separate (d.prepare arg) = none) :
    step d fsys split args i res arg = secondSwitch d fsys split args i res (d.prepare arg) := by
  simp only [step, noDash, notCompiler, noOperand, Bool.false_eq_true, if_false,
    Bool.not_false, Bool.true_and]

/-- A response file that reads and splits is spliced in after the current argument, and the
loop goes on with the next one. -/
theorem secondSwitch_rspfile {args : List (List UInt8)} {i : Nat} {res : ScanDepsParams}
    {arg buf : List UInt8} {words : List (List UInt8)} (rsp : hasPrefix arg [at_] = true)
    (read : fsys (trimPrefix arg [at_]) = some buf) (splits : split buf = some words) :
    secondSwitch d fsys split args i res arg =
      .next (args.take (i + 1) ++ words ++ args.drop (i + 1)) (i + 1)
        (res.add .files (trimPrefix arg [at_])) := by
  simp only [secondSwitch, rsp, if_true, read, splits]

variable (d fsys split) in
/-- The words the second `switch` splices in for `arg` when it reads and splits it as a response
file. -/
def rspWords (arg : List UInt8) : Option (List (List UInt8)) :=
  let arg := if hasPrefix arg (str "-") then arg else d.prepare arg
  if hasPrefix arg [at_] then (fsys (trimPrefix arg [at_])).bind split else none

/-- The second `switch` goes on at the next index, over the same arguments or with the words of
a response file spliced in after the current one. -/
theorem secondSwitch_next {args args' : List (List UInt8)} {i i' : Nat} {res res' : ScanDepsParams}
    {arg : List UInt8} (h : secondSwitch d fsys split args i res arg = .next args' i' res') :
    i' = i + 1 ∧ (args' = args ∨ ∃ words, hasPrefix arg [at_] = true ∧
      (fsys (trimPrefix arg [at_])).bind split = some words ∧
      args' = args.take (i + 1) ++ words ++ args.drop (i + 1)) := by
  unfold secondSwitch at h
  split at h
  · rename_i rsp
    dsimp only at h
    split at h
    · cases h
    · rename_i buf read
      split at h
      · cases h
      · rename_i words splits
        cases h
        exact ⟨rfl, .inr ⟨words, rsp, by simp [read, splits], rfl⟩⟩
  · cases h
    exact ⟨rfl, .inl rfl⟩

/-- An iteration that goes on moves past the argument, and past its operand if it takes one,
or splices in the words of a response file after the argument or after its operand. -/
theorem step_next {args args' : List (List UInt8)} {i i' : Nat} {res res' : ScanDepsParams}
    {arg : List UInt8} (h : step d fsys split args i res arg = .next args' i' res') :
    (args' = args ∧ i < i' ∧ i' ≤ i + 2) ∨
      ∃ j words, (j = i ∨ j = i + 1 ∧ i + 1 < args.length) ∧
        rspWords d fsys split arg = some words ∧ i' = j + 1 ∧
        args' = args.take (j + 1) ++ words ++ args.drop (j + 1) := by
  unfold step at h
  dsimp only at h
  have rsp : ∀ {words}, hasPrefix (if hasPrefix arg (str "-") = true then arg else d.prepare arg)
      [at_] = true → (fsys (trimPrefix (if hasPrefix arg (str "-") = true then arg else
        d.prepare arg) [at_])).bind split = some words → rspWords d fsys split arg = some words :=
    fun pre read => by simp only [rspWords, pre, if_true, read]
  split at h
  · split at h
    · cases h
    · rename_i operand hop
      split at h
      · cases h
        exact .inl ⟨rfl, by omega, le_rfl⟩
      · obtain ⟨rfl, same | ⟨words, pre, read, rfl⟩⟩ := secondSwitch_next h
        · exact .inl ⟨same, by omega, le_rfl⟩
        · have : i + 1 < args.length := (List.getElem?_eq_some_iff.1 hop).1
          exact .inr ⟨i + 1, words, .inr ⟨rfl, this⟩, rsp pre read, rfl, rfl⟩
  · obtain ⟨rfl, same | ⟨words, pre, read, rfl⟩⟩ := secondSwitch_next h
    · exact .inl ⟨same, by omega, by omega⟩
    · exact .inr ⟨i, words, .inl rfl, rsp pre read, rfl, rfl⟩

/-- A panic's index and length, reported `k` places further on. -/
def Outcome.offset (k : Nat) : Outcome → Outcome
  | .indexOutOfRange index length => .indexOutOfRange (k + index) (k + length)
  | o => o

theorem Outcome.offset_offset (k m : Nat) (o : Outcome) :
    (o.offset k).offset m = o.offset (m + k) := by
  cases o <;> simp [Outcome.offset, Nat.add_assoc]

/-- An iteration over the arguments `rest`, read as the arguments after `pre`. -/
def Next.shift (pre : List (List UInt8)) : Next → Next
  | .next args i res => .next (pre ++ args) (pre.length + i) res
  | .stop o => .stop (o.offset pre.length)

section Locality

variable {pre rest : List (List UInt8)} {i : Nat} {res : ScanDepsParams}

theorem secondSwitch_shift (arg : List UInt8) :
    secondSwitch d fsys split (pre ++ rest) (pre.length + i) res arg =
      (secondSwitch d fsys split rest i res arg).shift pre := by
  unfold secondSwitch
  split
  · dsimp only
    split
    · rfl
    · split
      · rfl
      · rw [Nat.add_assoc, List.take_append, List.drop_append]
        simp [Next.shift]
  · simp [Next.shift, Nat.add_assoc]

theorem step_shift (arg : List UInt8) :
    step d fsys split (pre ++ rest) (pre.length + i) res arg =
      (step d fsys split rest i res arg).shift pre := by
  have operand : (pre ++ rest)[pre.length + i + 1]? = rest[i + 1]? := by
    rw [Nat.add_assoc, List.getElem?_append_right (by omega), Nat.add_sub_cancel_left]
  unfold step
  dsimp only
  split
  · rw [operand]
    split
    · simp [Next.shift, Outcome.offset, Nat.add_assoc]
    · split
      · simp [Next.shift, Nat.add_assoc]
      · rw [Nat.add_assoc, secondSwitch_shift]
  · exact secondSwitch_shift _

/-- The loop reads no argument before its index: over `pre ++ rest` from `pre.length + i` it
runs as over `rest` from `i`, and reports a panic's index `pre.length` further on. -/
theorem loop_shift (fuel : Nat) :
    loop d fsys split fuel (pre ++ rest) (pre.length + i) res =
      (loop d fsys split fuel rest i res).map (Outcome.offset pre.length) := by
  induction fuel generalizing rest i res with
  | zero => rfl
  | succ fuel ih =>
    rw [loop, loop, List.getElem?_append_right (by omega), Nat.add_sub_cancel_left]
    split
    · rfl
    · rw [step_shift]
      cases step d fsys split rest i res _ with
      | next args j res' => exact ih
      | stop o => rfl

end Locality

variable (d fsys split)

/-- The loop from its start, over `args`, with `fuel` iterations. -/
def extract (fuel : Nat) (args : List (List UInt8)) : Option Outcome :=
  loop d fsys split fuel args 0 {}

end Loop

end Siso.Toolsupport

namespace Siso.Gccutil

open Go Filepath Toolsupport

/-- The source file extensions of `gccutil`. -/
def sourceExts : List (List UInt8) :=
  [str ".c", str ".cc", str ".cxx", str ".cpp", str ".m", str ".mm", str ".S"]

/-- The tables of `gccutil.ExtractScanDepsParams`. -/
def dialect : Dialect where
  prepare arg := arg
  isCompiler arg :=
    let cmdname := base arg
    hasSuffix cmdname (str "clang") || hasSuffix cmdname (str "clang++") ||
      hasSuffix cmdname (str "gcc") || hasSuffix cmdname (str "g++")
  separate arg :=
    if arg ∈ [str "-I", str "--include-directory", str "-isystem", str "-iquote"] then
      some (.dirs, true)
    else if arg ∈ [str "-F", str "-iframework"] then some (.frameworks, true)
    else if arg = str "-include" then some (.includes, true)
    else if arg = str "-isysroot" then some (.sysroots, true)
    else if arg = str "--sysroot" then some (.sysroots, false)
    else if arg = str "-D" then some (.defines, true)
    else none
  arms :=
    [(str "-I", .add .dirs), (str "--include=", .add .includes),
      (str "--include-directory=", .add .dirs), (str "-iquote", .add .dirs),
      (str "-isystem", .add .dirs), (str "-F", .add .frameworks),
      (str "-fmodule-file=", .moduleFile), (str "-fmodule-map-file=", .add .files),
      (str "-fprofile-list=", .add .files), (str "-fprofile-use=", .add .files),
      (str "-fprofile-sample-use=", .add .files), (str "-fsanitize-ignorelist=", .add .files),
      (str "-iframework", .add .frameworks), (str "--gcc-toolchain=", .add .sysroots),
      (str "--sysroot=", .add .sysroots), (str "-D", .add .defines)]
  isSource arg := !hasPrefix arg (str "-") && decide (ext arg ∈ sourceExts)

/-- `normalizeArgs(args)`: a `/bin/sh -c` command line is split after its
`PWD=/proc/self/cwd ` prefix. -/
def normalizeArgs (split : List UInt8 → Option (List (List UInt8))) (args : List (List UInt8)) :
    Except ExtractError (List (List UInt8)) :=
  match args with
  | [sh, c, cmd] =>
    if sh = str "/bin/sh" ∧ c = str "-c" then
      if !hasPrefix cmd (str "PWD=/proc/self/cwd ") then .error .noPwdPrefix
      else
        match split (trimPrefix cmd (str "PWD=/proc/self/cwd ")) with
        | none => .error (.normalizeSplit cmd)
        | some cmdArgs => .ok cmdArgs
    else .ok args
  | _ => .ok args

/-- `gccutil.ExtractScanDepsParams(ctx, args, env, fsys)`, with `fuel` iterations. -/
def extractScanDepsParams (fsys : List UInt8 → Option (List UInt8))
    (split : List UInt8 → Option (List (List UInt8))) (fuel : Nat) (args : List (List UInt8)) :
    Option Outcome :=
  match normalizeArgs split args with
  | .error err => some (.error {} err)
  | .ok args => extract dialect fsys split fuel args

end Siso.Gccutil

namespace Siso.Msvcutil

open Go Filepath Toolsupport

/-- `'\\'`. -/
def backslash : UInt8 := 92

/-- The source file extensions of `msvcutil`. -/
def sourceExts : List (List UInt8) := [str ".c", str ".cc", str ".cxx", str ".cpp", str ".S"]

/-- The tables of `msvcutil.ExtractScanDepsParams`. -/
def dialect : Dialect where
  prepare arg := replaceAll arg backslash slash
  isCompiler arg :=
    let cmdname := base arg
    trimSuffix cmdname (ext cmdname) = str "clang-cl"
  separate arg :=
    if arg ∈ [str "-I", str "/I"] then some (.dirs, true)
    else if arg ∈ [str "-D", str "/D"] then some (.defines, true)
    else if arg ∈ [str "-FI", str "/FI"] then some (.includes, true)
    else none
  arms :=
    [(str "-I", .add .dirs), (str "/I", .add .dirs), (str "-D", .add .defines),
      (str "/D", .add .defines), (str "-fmodule-file=", .moduleFile),
      (str "-fmodule-map-file=", .add .files), (str "-FI", .add .includes),
      (str "/FI", .add .includes), (str "-fprofile-use=", .add .files),
      (str "-fsanitize-ignorelist=", .add .files), (str "/winsysroot", .add .sysroots)]
  isSource arg :=
    !hasPrefix arg (str "-") && !hasPrefix arg (str "/") && decide (ext arg ∈ sourceExts)

/-- `msvcutil.ExtractScanDepsParams(ctx, args, env, fsys)`, with `fuel` iterations. -/
def extractScanDepsParams (fsys : List UInt8 → Option (List UInt8))
    (split : List UInt8 → Option (List (List UInt8))) (fuel : Nat) (args : List (List UInt8)) :
    Option Outcome :=
  extract dialect fsys split fuel args

end Siso.Msvcutil
