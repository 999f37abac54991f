import Siso.Toolsupport.ScanDepsParams

/-!
# `gccutil.DepsArgs`

`DepsArgs` turns a compile command line into the one `Deps` runs to ask the compiler for the
dependencies of the compile: it drops `-c`, `-MD`, `-MMD`, `-MF file`, `-o file` and the joined
forms `-MFfile` and `-ofile`, and appends `-M`.  A separate `-MF` or `-o` takes the next
argument with it, whatever that argument is.  Other spellings of an output flag stay, such as
`-Wp,-MD,a.d` or `--write-dependencies`, and the compiler run with them still writes the file
they name.

The loop carries one flag, `skip`; `depsLoop_append` says what the loop does on a command line
cut in two, and the theorems below are read off it: the result keeps the order of the command
line, holds none of the dropped flags, and keeps every other argument that is not the operand
of a separate `-MF` or `-o`.
-/

namespace Siso.Gccutil

open Go Toolsupport

/-- The loop of `DepsArgs` over the normalized arguments; `skip` is set by a separate `-MF` or
`-o` to drop the argument after it. -/
def depsLoop : Bool → List (List UInt8) → List (List UInt8)
  | _, [] => []
  | true, _ :: args => depsLoop false args
  | false, arg :: args =>
    if arg ∈ [str "-MD", str "-MMD", str "-c"] then depsLoop false args
    else if arg ∈ [str "-MF", str "-o"] then depsLoop true args
    else if hasPrefix arg (str "-MF") then depsLoop false args
    else if hasPrefix arg (str "-o") then depsLoop false args
    else arg :: depsLoop false args

/-- `DepsArgs(args)`.  Its errors are those of `normalizeArgs`, which it wraps in
`failed to normalize args: %v` as `ExtractScanDepsParams` does. -/
def depsArgs (split : List UInt8 → Option (List (List UInt8))) (args : List (List UInt8)) :
    Except ExtractError (List (List UInt8)) :=
  match normalizeArgs split args with
  | .error err => .error err
  | .ok args => .ok (depsLoop false args ++ [str "-M"])

/-- The arguments `DepsArgs` drops by themselves: `-c`, `-MD`, `-MMD`, and every argument that
starts with `-MF` or `-o`. -/
def Drops (arg : List UInt8) : Prop :=
  arg ∈ [str "-MD", str "-MMD", str "-c"] ∨ hasPrefix arg (str "-MF") ∨
    hasPrefix arg (str "-o")

instance (arg : List UInt8) : Decidable (Drops arg) := inferInstanceAs (Decidable (_ ∨ _))

/-- The separate flags whose operand is the next argument. -/
def TakesOperand (arg : List UInt8) : Prop := arg ∈ [str "-MF", str "-o"]

instance (arg : List UInt8) : Decidable (TakesOperand arg) := inferInstanceAs (Decidable (_ ∈ _))

/-- `skip` after the loop has read `args`. -/
def skipAfter : Bool → List (List UInt8) → Bool
  | skip, [] => skip
  | true, _ :: args => skipAfter false args
  | false, arg :: args => skipAfter (decide (TakesOperand arg)) args

section Loop

variable {skip : Bool} {args : List (List UInt8)}

theorem takesOperand_drops {arg : List UInt8} (h : TakesOperand arg) : Drops arg := by
  simp only [TakesOperand, List.mem_cons, List.mem_singleton, List.not_mem_nil, or_false] at h
  rcases h with rfl | rfl <;> right <;> decide

/-- One argument read with `skip` clear. -/
theorem depsLoop_false_cons (arg : List UInt8) (args : List (List UInt8)) :
    depsLoop false (arg :: args) =
      (if Drops arg then [] else [arg]) ++ depsLoop (decide (TakesOperand arg)) args := by
  by_cases operand : TakesOperand arg
  · rw [if_pos (takesOperand_drops operand), decide_eq_true operand, List.nil_append]
    simp only [TakesOperand, List.mem_cons, List.mem_singleton, List.not_mem_nil,
      or_false] at operand
    rcases operand with rfl | rfl <;> rfl
  · rw [decide_eq_false operand]
    simp only [TakesOperand] at operand
    simp only [depsLoop, if_neg operand, Drops]
    split_ifs <;> simp_all

/-- The loop over a command line cut in two is the loop over the first part, then the loop over
the second from the `skip` the first leaves. -/
theorem depsLoop_append (pre post : List (List UInt8)) :
    depsLoop skip (pre ++ post) = depsLoop skip pre ++ depsLoop (skipAfter skip pre) post := by
  induction pre generalizing skip with
  | nil => cases skip <;> rfl
  | cons arg pre ih =>
    cases skip
    · rw [List.cons_append, depsLoop_false_cons, depsLoop_false_cons, ih, List.append_assoc]
      rfl
    · exact ih

/-- After an argument that is no separate `-MF` or `-o`, `skip` is clear. -/
theorem skipAfter_concat (pre : List (List UInt8)) {arg : List UInt8}
    (operand : ¬TakesOperand arg) : skipAfter skip (pre ++ [arg]) = false := by
  induction pre generalizing skip with
  | nil => cases skip <;> simp [skipAfter, operand]
  | cons a pre ih => cases skip <;> exact ih

/-- The loop keeps a subsequence of the command line. -/
theorem depsLoop_sublist : (depsLoop skip args).Sublist args := by
  induction args generalizing skip with
  | nil => cases skip <;> exact .slnil
  | cons arg args ih =>
    cases skip
    · rw [depsLoop_false_cons]
      split
      · exact ih.cons _
      · exact ih.cons₂ _
    · exact ih.cons _

/-- No argument the loop keeps is dropped by itself. -/
theorem not_drops_of_mem_depsLoop {arg : List UInt8} (h : arg ∈ depsLoop skip args) :
    ¬Drops arg := by
  induction args generalizing skip with
  | nil => cases skip <;> cases h
  | cons a args ih =>
    cases skip
    · rw [depsLoop_false_cons] at h
      split at h
      · exact ih h
      · rcases List.mem_append.1 h with h | h
        · rwa [List.mem_singleton.1 h]
        · exact ih h
    · exact ih h

end Loop

/-- `DepsArgs` of a command line that normalizes returns the arguments of the normalized line in
their order, then `-M`: none of them is `-c`, `-MD`, `-MMD` or starts with `-MF` or `-o`, and
every argument that is neither of these nor the operand of a separate `-MF` or `-o` is among
them. -/
theorem depsArgs_spec (split : List UInt8 → Option (List (List UInt8)))
    {args normalized : List (List UInt8)} (norm : normalizeArgs split args = .ok normalized) :
    ∃ kept, depsArgs split args = .ok (kept ++ [str "-M"]) ∧ kept.Sublist normalized ∧
      (∀ arg ∈ kept, ¬Drops arg) ∧
      ∀ pre arg post, normalized = pre ++ arg :: post → ¬Drops arg →
        (∀ last, pre.getLast? = some last → ¬TakesOperand last) → arg ∈ kept := by
  refine ⟨depsLoop false normalized, by simp [depsArgs, norm], depsLoop_sublist,
    fun _ h => not_drops_of_mem_depsLoop h, fun pre arg post split keeps free => ?_⟩
  have cleared : skipAfter false pre = false := by
    rcases pre.eq_nil_or_concat with rfl | ⟨init, last, rfl⟩
    · rfl
    · rw [List.concat_eq_append] at free ⊢
      exact skipAfter_concat init (free last (by simp))
  rw [split, depsLoop_append, cleared, depsLoop_false_cons, if_neg keeps]
  exact List.mem_append_right _ (List.mem_append_left _ (List.mem_singleton_self arg))

/-- A compile step: `-MF out.d` and `-o out.o` go with their operands, `-MD` and `-c` go, and
the compiler, the source and the include flag stay. -/
def compileLine : List (List UInt8) :=
  [str "clang", str "-MD", str "-MF", str "out.d", str "-c", str "a.cc", str "-Iinc", str "-o",
    str "out.o"]

theorem depsArgs_spec_compileLine :
    normalizeArgs (fun _ => none) compileLine = .ok compileLine ∧
      ∃ kept, depsArgs (fun _ => none) compileLine = .ok (kept ++ [str "-M"]) ∧
        kept.Sublist compileLine ∧ (∀ arg ∈ kept, ¬Drops arg) ∧
        ∀ pre arg post, compileLine = pre ++ arg :: post → ¬Drops arg →
          (∀ last, pre.getLast? = some last → ¬TakesOperand last) → arg ∈ kept :=
  ⟨rfl, depsArgs_spec (fun _ => none) rfl⟩

example : depsArgs (fun _ => none) compileLine =
    .ok [str "clang", str "a.cc", str "-Iinc", str "-M"] := rfl

end Siso.Gccutil
