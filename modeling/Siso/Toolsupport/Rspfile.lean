import Mathlib.Algebra.BigOperators.Group.List
import Mathlib.Algebra.Order.Ring.Nat
import Siso.Toolsupport.ScanDepsParams

/-!
# Runs of `ExtractScanDepsParams` that do not return

Two command lines on which `ExtractScanDepsParams` returns neither parameters nor an error.
A flag whose operand is a separate argument, at the end of the arguments, reads one past the
end and panics.  A response file that names itself is spliced in after itself again and again:
each expansion puts one more `@file` just behind the index, so the loop never reaches the end
of `args`, whatever fuel it is given.

When the response files nest only finitely deep, the loop does return: each iteration lowers
the number of arguments left to scan, each counted with the words it expands to.  And a
response file stands for its words, since the loop never reads an argument before its index:
expanding `@file` runs as the command line with the file's words in its place.
-/

namespace Siso.Toolsupport

open Go

/-- `-I` at the end of the arguments reads `args[2]` of two arguments, in both packages, whatever
the file system and the splitter. -/
theorem extractScanDepsParams_operand_past_end (fsys : List UInt8 → Option (List UInt8))
    (split : List UInt8 → Option (List (List UInt8))) (fuel : Nat) :
    Gccutil.extractScanDepsParams fsys split (fuel + 2) [str "clang", str "-I"] =
        some (.indexOutOfRange 2 2) ∧
      Msvcutil.extractScanDepsParams fsys split (fuel + 2) [str "cl", str "/I"] =
        some (.indexOutOfRange 2 2) := by
  constructor <;> rfl

/-- A file system whose only file `f` holds `@f`. -/
def selfRsp (name : List UInt8) : Option (List UInt8) :=
  if name = str "f" then some (str "@f") else none

section SelfRsp

variable {d : Dialect} {split : List UInt8 → Option (List (List UInt8))}

/-- Once the index is on the last of a run of `@f`, each iteration appends another `@f` and
moves the index onto it, so no fuel is enough. -/
theorem loop_selfRsp (prepared : d.prepare (str "@f") = str "@f")
    (notCompiler : d.isCompiler (str "@f") = false) (noOperand : d.separate (str "@f") = none)
    (splits : split (str "@f") = some [str "@f"]) (pre : List (List UInt8)) :
    ∀ fuel n res, loop d selfRsp split fuel (pre ++ List.replicate (n + 1) (str "@f"))
      (pre.length + n) res = none
  | 0, _, _ => rfl
  | fuel + 1, n, res => by
    have last : (pre ++ List.replicate (n + 1) (str "@f"))[pre.length + n]? = some (str "@f") := by
      rw [List.getElem?_append_right (Nat.le_add_right _ _), Nat.add_sub_cancel_left]
      simp
    have grown : (pre ++ List.replicate (n + 1) (str "@f")).take (pre.length + n + 1) ++
        [str "@f"] ++ (pre ++ List.replicate (n + 1) (str "@f")).drop (pre.length + n + 1) =
        pre ++ List.replicate (n + 1 + 1) (str "@f") := by
      rw [List.take_of_length_le (by simp; omega), List.drop_of_length_le (by simp; omega),
        List.append_nil, List.replicate_succ' (n + 1), List.append_assoc]
    rw [loop, last]
    simp only
    rw [step_of_plain (by decide) (by rwa [prepared]) (by rwa [prepared]), prepared,
      secondSwitch_rspfile (by decide) (show selfRsp (trimPrefix (str "@f") [at_]) = some (str "@f")
        by decide) splits, grown]
    exact loop_selfRsp prepared notCompiler noOperand splits pre fuel (n + 1) _

end SelfRsp

/-- `clang @f` and `cl @f`, with `f` holding `@f`, run out of any fuel, for every splitter that
reads `@f` as the one word it is. -/
theorem extractScanDepsParams_selfRsp {split : List UInt8 → Option (List (List UInt8))}
    (splits : split (str "@f") = some [str "@f"]) (fuel : Nat) :
    Gccutil.extractScanDepsParams selfRsp split fuel [str "clang", str "@f"] = none ∧
      Msvcutil.extractScanDepsParams selfRsp split fuel [str "cl", str "@f"] = none := by
  cases fuel with
  | zero => exact ⟨rfl, rfl⟩
  | succ fuel =>
    constructor
    · exact loop_selfRsp (by decide) (by decide) (by decide) splits [str "clang"] fuel 0 _
    · exact loop_selfRsp (by decide) (by decide) (by decide) splits [str "cl"] fuel 0 _

theorem extractScanDepsParams_selfRsp_words :
    (fun s => some [s] : List UInt8 → Option (List (List UInt8))) (str "@f") = some [str "@f"] ∧
      Gccutil.extractScanDepsParams selfRsp (fun s => some [s]) 1000 [str "clang", str "@f"] =
        none ∧
      Msvcutil.extractScanDepsParams selfRsp (fun s => some [s]) 1000 [str "cl", str "@f"] = none :=
  ⟨rfl, extractScanDepsParams_selfRsp rfl 1000⟩

section Finite

variable (d : Dialect) (fsys : List UInt8 → Option (List UInt8))
  (split : List UInt8 → Option (List (List UInt8)))

/-- An argument whose response files nest at most `depth` deep. -/
def FiniteRsp : Nat → List UInt8 → Prop
  | 0, arg => rspWords d fsys split arg = none
  | depth + 1, arg =>
    ∀ words, rspWords d fsys split arg = some words → ∀ w ∈ words, FiniteRsp depth w

/-- The iterations an argument costs the loop, counting its response files `depth` deep. -/
def weight : Nat → List UInt8 → Nat
  | depth + 1, arg =>
    1 + ((rspWords d fsys split arg).map fun words => (words.map (weight depth)).sum).getD 0
  | 0, _ => 1

/-- The iterations left at index `i`: the weights of the arguments from `i` on. -/
def potential (depth : Nat) (args : List (List UInt8)) (i : Nat) : Nat :=
  ((args.drop i).map (weight d fsys split depth)).sum

variable {d fsys split}

theorem FiniteRsp.succ : ∀ {depth : Nat} {arg : List UInt8}, FiniteRsp d fsys split depth arg →
    FiniteRsp d fsys split (depth + 1) arg
  | 0, _, finite => fun words rsp => absurd (finite.symm.trans rsp) (by simp)
  | _ + 1, _, finite => fun words rsp w mem => (finite words rsp w mem).succ

/-- Past its nesting depth, the weight of an argument no longer changes. -/
theorem weight_succ : ∀ {depth : Nat} {arg : List UInt8}, FiniteRsp d fsys split depth arg →
    weight d fsys split (depth + 1) arg = weight d fsys split depth arg
  | 0, _, finite => by simp [weight, show rspWords d fsys split _ = none from finite]
  | depth + 1, arg, finite => by
    rw [weight, weight]
    congr 1
    cases rsp : rspWords d fsys split arg with
    | none => rfl
    | some words =>
      simp only [Option.map_some', Option.getD_some]
      exact congrArg List.sum
        (List.map_congr_left fun w mem => weight_succ (finite words rsp w mem))

/-- A response file costs one iteration more than the words it splices in. -/
theorem weight_rsp {depth : Nat} {arg : List UInt8} {words : List (List UInt8)}
    (finite : FiniteRsp d fsys split (depth + 1) arg)
    (rsp : rspWords d fsys split arg = some words) :
    weight d fsys split (depth + 1) arg =
      1 + (words.map (weight d fsys split (depth + 1))).sum := by
  rw [weight, rsp, Option.map_some', Option.getD_some,
    List.map_congr_left fun w mem => weight_succ (finite words rsp w mem)]

theorem one_le_weight (depth : Nat) (arg : List UInt8) : 1 ≤ weight d fsys split depth arg := by
  cases depth <;> simp [weight]

/-- The weights of a later suffix add up to no more. -/
theorem potential_le {depth : Nat} (args : List (List UInt8)) {i j : Nat} (le : i ≤ j) :
    potential d fsys split depth args j ≤ potential d fsys split depth args i := by
  obtain ⟨k, rfl⟩ := Nat.exists_eq_add_of_le le
  unfold potential
  rw [← List.drop_drop]
  generalize args.drop i = rest
  clear le
  induction k generalizing rest with
  | zero => simp
  | succ k ih =>
    cases rest with
    | nil => simp
    | cons a rest => simpa using (ih rest).trans (Nat.le_add_left _ _)

/-- Each iteration that goes on lowers the potential, and the arguments still to come keep their
depth: the words of a response file nest one level less than the file. -/
theorem step_decreases {depth : Nat} {args args' : List (List UInt8)} {i i' : Nat}
    {res res' : ScanDepsParams} {arg : List UInt8} (current : args[i]? = some arg)
    (finite : ∀ a ∈ args.drop i, FiniteRsp d fsys split depth a)
    (h : step d fsys split args i res arg = .next args' i' res') :
    potential d fsys split depth args' i' < potential d fsys split depth args i ∧
      ∀ a ∈ args'.drop i', FiniteRsp d fsys split depth a := by
  obtain ⟨hi, rfl⟩ := List.getElem?_eq_some_iff.1 current
  have dropI : args.drop i = args[i] :: args.drop (i + 1) := List.drop_eq_getElem_cons hi
  have atI : potential d fsys split depth args i =
      weight d fsys split depth args[i] + potential d fsys split depth args (i + 1) := by
    rw [potential, potential, dropI, List.map_cons, List.sum_cons]
  have later : ∀ {k}, i ≤ k → ∀ a ∈ args.drop k, FiniteRsp d fsys split depth a :=
    fun {k} le a mem => finite a (by
      rw [show k = i + (k - i) by omega, ← List.drop_drop] at mem
      exact List.mem_of_mem_drop mem)
  rcases step_next h with ⟨same, lt, -⟩ | ⟨j, words, hj, rsp, rfl, rfl⟩
  · rw [same]
    have one := @one_le_weight d fsys split depth args[i]
    have le := @potential_le d fsys split depth args (i + 1) i' (by omega)
    exact ⟨by omega, later lt.le⟩
  · have argFinite : FiniteRsp d fsys split depth args[i] :=
      finite _ (dropI ▸ List.mem_cons_self _ _)
    obtain _ | depth := depth
    · exact absurd (argFinite.symm.trans rsp) (by simp)
    have jLt : j < args.length := by omega
    have spliced : (args.take (j + 1) ++ words ++ args.drop (j + 1)).drop (j + 1) =
        words ++ args.drop (j + 1) := by
      rw [List.append_assoc, List.drop_left' (by simp; omega)]
    have le := @potential_le d fsys split (depth + 1) args (i + 1) (j + 1) (by omega)
    have unfolded := weight_rsp argFinite rsp
    refine ⟨?_, ?_⟩
    · simp only [potential, spliced, List.map_append, List.sum_append] at le atI ⊢
      omega
    · rw [spliced]
      intro a mem
      rcases List.mem_append.1 mem with word | rest
      · exact (argFinite words rsp a word).succ
      · exact later (by omega) a rest

/-- With fuel above the potential, the loop returns, fails or panics. -/
theorem loop_returns {depth : Nat} :
    ∀ fuel args i res, (∀ a ∈ args.drop i, FiniteRsp d fsys split depth a) →
      potential d fsys split depth args i < fuel →
        ∃ o, loop d fsys split fuel args i res = some o
  | 0, _, _, _, _, lt => absurd lt (Nat.not_lt_zero _)
  | fuel + 1, args, i, res, finite, lt => by
    rw [loop]
    cases current : args[i]? with
    | none => exact ⟨_, rfl⟩
    | some arg =>
      simp only
      cases next : step d fsys split args i res arg with
      | stop o => exact ⟨o, rfl⟩
      | next args' i' res' =>
        obtain ⟨lower, finite'⟩ := step_decreases current finite next
        exact loop_returns fuel args' i' res' finite' (by omega)

end Finite

/-- When the response files named by the arguments nest at most `depth` deep, that is when no
response file names itself through others, both `ExtractScanDepsParams` return, fail or panic:
`gccutil` after normalizing the arguments, `msvcutil` within the potential of its arguments. -/
theorem extractScanDepsParams_returns {fsys : List UInt8 → Option (List UInt8)}
    {split : List UInt8 → Option (List (List UInt8))} {args : List (List UInt8)} {depth : Nat}
    (gcc : ∀ args', Gccutil.normalizeArgs split args = .ok args' →
      ∀ a ∈ args', FiniteRsp Gccutil.dialect fsys split depth a)
    (msvc : ∀ a ∈ args, FiniteRsp Msvcutil.dialect fsys split depth a) :
    (∃ fuel o, Gccutil.extractScanDepsParams fsys split fuel args = some o) ∧
      ∃ o, Msvcutil.extractScanDepsParams fsys split
        (potential Msvcutil.dialect fsys split depth args 0 + 1) args = some o := by
  refine ⟨?_, loop_returns _ args 0 {} (by simpa using msvc) (by omega)⟩
  cases normalized : Gccutil.normalizeArgs split args with
  | error err => exact ⟨0, .error {} err, by simp [Gccutil.extractScanDepsParams, normalized]⟩
  | ok args' =>
    exact ⟨_, by simpa [Gccutil.extractScanDepsParams, normalized, extract] using
      loop_returns _ args' 0 {} (by simpa using gcc args' normalized) (Nat.lt_succ_self _)⟩


/-- A splitter that reads a text as one word. -/
def oneWord (text : List UInt8) : Option (List (List UInt8)) := some [text]

/-- A file system whose only file `a` holds `-Ix`. -/
def flagsRsp (name : List UInt8) : Option (List UInt8) :=
  if name = str "a" then some (str "-Ix") else none

/-- `clang @a` names a response file that names none. -/
theorem flagsRsp_finite {d : Dialect} (dialect : d = Gccutil.dialect ∨ d = Msvcutil.dialect) :
    ∀ a ∈ [str "clang", str "@a"], FiniteRsp d flagsRsp oneWord 1 a := by
  have plain : rspWords d flagsRsp oneWord (str "-Ix") = none := by
    rcases dialect with rfl | rfl <;> decide
  have compiler : rspWords d flagsRsp oneWord (str "clang") = none := by
    rcases dialect with rfl | rfl <;> decide
  have rsp : rspWords d flagsRsp oneWord (str "@a") = some [str "-Ix"] := by
    rcases dialect with rfl | rfl <;> decide
  intro a mem words read w word
  simp only [List.mem_cons, List.mem_singleton, List.not_mem_nil, or_false] at mem
  rcases mem with rfl | rfl
  · rw [compiler] at read; cases read
  · rw [rsp] at read; cases read
    rw [List.mem_singleton.1 word]
    exact plain

theorem extractScanDepsParams_returns_flags :
    ((∀ args', Gccutil.normalizeArgs oneWord [str "clang", str "@a"] = .ok args' →
        ∀ a ∈ args', FiniteRsp Gccutil.dialect flagsRsp oneWord 1 a) ∧
      ∀ a ∈ [str "clang", str "@a"], FiniteRsp Msvcutil.dialect flagsRsp oneWord 1 a) ∧
    (∃ fuel o,
      Gccutil.extractScanDepsParams flagsRsp oneWord fuel [str "clang", str "@a"] = some o) ∧
      ∃ o, Msvcutil.extractScanDepsParams flagsRsp oneWord
        (potential Msvcutil.dialect flagsRsp oneWord 1 [str "clang", str "@a"] 0 + 1)
        [str "clang", str "@a"] = some o :=
  have gcc : ∀ args', Gccutil.normalizeArgs oneWord [str "clang", str "@a"] = .ok args' →
      ∀ a ∈ args', FiniteRsp Gccutil.dialect flagsRsp oneWord 1 a := fun args' normalized => by
    cases normalized
    exact flagsRsp_finite (.inl rfl)
  ⟨⟨gcc, flagsRsp_finite (.inr rfl)⟩,
    extractScanDepsParams_returns gcc (flagsRsp_finite (.inr rfl))⟩

/-- A response file stands for its words: the loop that expands `@file` at its index runs as the
loop over the arguments with the words written in its place and the file already in `Files`.
The file is the one `prepare` names, after `msvcutil` turned backslashes into slashes.  Only a
panic is reported one place further on, past the `@file` that stays in `args`. -/
theorem loop_inlines_rspfile {d : Dialect} {fsys : List UInt8 → Option (List UInt8)}
    {split : List UInt8 → Option (List (List UInt8))} {pre post words : List (List UInt8)}
    {arg : List UInt8} {res : ScanDepsParams} (noDash : hasPrefix arg (str "-") = false)
    (notCompiler : d.isCompiler (d.prepare arg) = false)
    (noOperand : d.separate (d.prepare arg) = none) (rsp : hasPrefix (d.prepare arg) [at_] = true)
    (read : (fsys (trimPrefix (d.prepare arg) [at_])).bind split = some words) (fuel : Nat) :
    loop d fsys split (fuel + 1) (pre ++ arg :: post) pre.length res =
      (loop d fsys split fuel (pre ++ words ++ post) pre.length
        (res.add .files (trimPrefix (d.prepare arg) [at_]))).map (Outcome.offset 1) := by
  obtain ⟨buf, hbuf, splits⟩ := Option.bind_eq_some.1 read
  have spliced : (pre ++ arg :: post).take (pre.length + 1) ++ words ++
      (pre ++ arg :: post).drop (pre.length + 1) = (pre ++ [arg]) ++ (words ++ post) := by
    rw [List.take_append, List.drop_append]
    simp
  rw [loop, List.getElem?_append_right le_rfl, Nat.sub_self]
  simp only [List.getElem?_cons_zero]
  rw [step_of_plain noDash notCompiler noOperand, secondSwitch_rspfile rsp hbuf splits,
    spliced, show pre.length + 1 = (pre ++ [arg]).length + 0 by simp]
  dsimp only
  rw [loop_shift, List.append_assoc, ← Nat.add_zero pre.length, loop_shift, Option.map_map]
  congr 1
  funext o
  rw [Function.comp_apply, Outcome.offset_offset, List.length_append, List.length_singleton,
    Nat.add_comm]

/-- A file system whose only file `dir/a.rsp` holds `/Ix`. -/
def windowsRsp (name : List UInt8) : Option (List UInt8) :=
  if name = str "dir/a.rsp" then some (str "/Ix") else none

/-- `cl @dir\a.rsp a.cc`: `msvcutil` reads the response file under the name with slashes. -/
theorem loop_inlines_rspfile_windows :
    (hasPrefix (str "@dir\\a.rsp") (str "-") = false ∧
      Msvcutil.dialect.isCompiler (Msvcutil.dialect.prepare (str "@dir\\a.rsp")) = false ∧
      Msvcutil.dialect.separate (Msvcutil.dialect.prepare (str "@dir\\a.rsp")) = none ∧
      hasPrefix (Msvcutil.dialect.prepare (str "@dir\\a.rsp")) [at_] = true ∧
      (windowsRsp (trimPrefix (Msvcutil.dialect.prepare (str "@dir\\a.rsp")) [at_])).bind
        oneWord = some [str "/Ix"]) ∧
    loop Msvcutil.dialect windowsRsp oneWord (4 + 1)
        ([str "cl"] ++ str "@dir\\a.rsp" :: [str "a.cc"]) [str "cl"].length {} =
      (loop Msvcutil.dialect windowsRsp oneWord 4 ([str "cl"] ++ [str "/Ix"] ++ [str "a.cc"])
        [str "cl"].length (({} : ScanDepsParams).add .files
          (trimPrefix (Msvcutil.dialect.prepare (str "@dir\\a.rsp")) [at_]))).map
        (Outcome.offset 1) :=
  ⟨⟨by decide, by decide, by decide, by decide, by decide⟩,
    loop_inlines_rspfile (by decide) (by decide) (by decide) (by decide) (by decide) 4⟩

end Siso.Toolsupport
