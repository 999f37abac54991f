import Siso.Go.Strings

/-!
# `siso ps`: the lines of one refresh

`render` appends a line for each running step under the heading lines it is given, stops once
the lines reach the limit `-n`, and ends with `steps=%d out of %d`.  The limit is on lines, the
headings included: under the two headings of each refresh, a limit of `n` shows `n - 2` steps,
and at least one, while the last render, which has no headings, shows `n`.  The flag's text,
"limit number of steps if it is positive", and the terminal height `Execute` takes as the limit
(`u.Height() - 2`) measure different things.

`fmt.Sprintf("%10s %9s %s", dur, phase, desc)` pads by runes; it is a parameter, as the
properties here are about which steps are shown and how many.
-/

namespace Siso.Ps

open Go

/-- The fields of `build.ActiveStepInfo` that `render` reads. -/
structure ActiveStepInfo where
  dur : List UInt8
  servDur : List UInt8
  phase : List UInt8
  desc : List UInt8
  deriving DecidableEq, Repr

section Render

variable (termui : Bool) (n : Int)
  (columns : List UInt8 → List UInt8 → List UInt8 → List UInt8)

/-- The line of a step: `fmt.Sprintf("%10s %9s %s", dur, as.Phase, as.Desc)`, with a newline
unless on a terminal, where `dur` is `as.ServDur`, or `(as.Dur)` when it is empty. -/
def stepLine (as : ActiveStepInfo) : List UInt8 :=
  let dur := if as.servDur = [] then str "(" ++ as.dur ++ str ")" else as.servDur
  if termui then columns dur as.phase as.desc else columns dur as.phase as.desc ++ str "\n"

/-- The loop of `render` over the steps: append the line of each, and `break` once
`c.n > 0 && len(lines) >= c.n`. -/
def renderLoop : List (List UInt8) → List ActiveStepInfo → List (List UInt8)
  | lines, [] => lines
  | lines, as :: rest =>
    let lines := lines ++ [stepLine termui columns as]
    if 0 < n ∧ n ≤ lines.length then lines else renderLoop lines rest

/-- `steps=%d out of %d\n`. -/
def summary (shown total : Nat) : List UInt8 :=
  str ("steps=" ++ toString shown ++ " out of " ++ toString total ++ "\n")

/-- `c.render(lines, activeSteps)`: the lines it prints. -/
def render (lines : List (List UInt8)) (steps : List ActiveStepInfo) : List (List UInt8) :=
  let out := renderLoop termui n columns lines steps
  out ++ [summary (out.length - lines.length) steps.length]

/-- The number of steps `render` shows under `headings` lines: all without a limit, and with
one as many as fit below it, but at least one. -/
def shown (headings total : Nat) : Nat :=
  if 0 < n then min total (max 1 (n - headings).toNat) else total

theorem renderLoop_eq (lines : List (List UInt8)) (steps : List ActiveStepInfo) :
    renderLoop termui n columns lines steps =
      lines ++ (steps.take (shown n lines.length steps.length)).map (stepLine termui columns) := by
  induction steps generalizing lines with
  | nil => simp [renderLoop, shown]
  | cons as rest ih =>
    rw [renderLoop]
    split
    · rename_i full
      have one : shown n lines.length (as :: rest).length = 1 := by
        simp only [shown, List.length_cons, List.length_append, List.length_nil] at full ⊢
        rw [if_pos full.1]
        omega
      rw [one]
      simp
    · rename_i room
      have more : shown n lines.length (as :: rest).length =
          shown n (lines ++ [stepLine termui columns as]).length rest.length + 1 := by
        simp only [shown, List.length_cons, List.length_append, List.length_nil] at room ⊢
        split
        · have step : (n - lines.length).toNat = (n - ↑(lines.length + 1)).toNat + 1 := by omega
          rw [step, max_eq_right (Nat.le_add_left 1 _), Nat.succ_min_succ,
            max_eq_right (by omega)]
        · rfl
      rw [ih, more, List.take_succ_cons, List.map_cons, List.append_assoc]
      rfl

end Render

/-- `render` prints the lines it is given, then the lines of the first steps, as many as
`shown` says: all of them without a limit, and with a limit `n > 0` as many as make the lines
reach `n`, the given lines counted, but at least one; and last the count of the steps shown out
of all. -/
theorem render_shows (termui : Bool) (n : Int)
    (columns : List UInt8 → List UInt8 → List UInt8 → List UInt8) (lines : List (List UInt8))
    (steps : List ActiveStepInfo) :
    render termui n columns lines steps =
      lines ++ (steps.take (shown n lines.length steps.length)).map (stepLine termui columns) ++
        [summary (shown n lines.length steps.length) steps.length] := by
  have count : shown n lines.length steps.length ≤ steps.length := by
    unfold shown; split <;> omega
  simp [render, renderLoop_eq, List.length_take, Nat.min_eq_left count]

/-- A limit of 5 shows three steps under the two headings of a refresh, and five in the last
render. -/
example : shown 5 2 10 = 3 ∧ shown 5 0 10 = 5 ∧ shown 2 2 10 = 1 := by decide

end Siso.Ps
