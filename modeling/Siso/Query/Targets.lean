import Mathlib.Data.List.Sort
import Siso.Go.Strings
import Siso.Query.Graph

/-!
# `siso query targets`

`run` calls `targetsGraph.Traverse` from every root node with one `seen` set shared by all the
calls.  Without `-rule` or `-all`, `Traverse` writes a line for each node it reaches that has
an in-edge, indented by the number of input edges it followed from the root to reach it, and
follows the inputs while `depth` is not `1`.

`Traverse` marks a node seen before it checks the depth, so a node first reached at depth `1` is
never expanded: when a shorter path reaches it later, it is already seen.  In `deepGraph`, with
`-depth 3`, the root `R` reads `A` and then `B`, and `A` reads `B`: `B` is reached through `A`
at depth `1` and not expanded, then skipped when `R` reaches it at depth `2`, so `C`, the input
of `B` at distance `2` from `R`, is never written.

What does hold is the other half: with a depth `d ≥ 1` the run returns once its fuel reaches
`d`, and `Written` says of its lines that each node is written once, with its in-edge, indented
by the length of a walk along input edges from a root to it, the walk by which it was first
reached, and that length is below `d`.  The indent is not the node's distance: in `deepGraph`
`B` is written at indent `2`, through `A`, though `R` reads it directly.
-/

namespace Siso.Query

open Go

/-- The flags of `siso query targets` that `Traverse` reads: `-rule`, whether it was given,
and `-all`. -/
structure TargetsFlags where
  rule : List UInt8
  requested : Bool
  all : Bool
  deriving DecidableEq, Repr

/-- What `Traverse` changes of the `targetsGraph`: `seen`, the lines written to `w`, and the
keys of `ruleTargets`. -/
structure TargetsGraph where
  seen : List (List UInt8)
  out : List (List UInt8)
  ruleTargets : List (List UInt8)
  deriving DecidableEq, Repr

/-- `g.Traverse(ctx, state, node, depth, indent)`, with `fuel` for its nesting; `none` when the
fuel runs out. -/
def targetsTraverse (st : State) (flags : TargetsFlags) :
    Nat → List UInt8 → Int → Nat → TargetsGraph → Option TargetsGraph
  | 0, _, _, _, _ => none
  | fuel + 1, node, depth, indent, g =>
    if node ∈ g.seen then some g
    else
      let g := { g with seen := node :: g.seen }
      match st.inEdge node with
      | none =>
        some (if flags.requested ∧ flags.rule = [] then
          { g with ruleTargets := g.ruleTargets.insert node } else g)
      | some edge =>
        let g :=
          if flags.requested then
            if flags.rule = edge.rule then { g with ruleTargets := g.ruleTargets.insert node }
            else g
          else if flags.all then
            { g with out := g.out ++ [node ++ str ": " ++ edge.rule ++ str "\n"] }
          else
            { g with out := g.out ++
              [List.replicate indent 32 ++ node ++ str ": " ++ edge.rule ++ str "\n"] }
        if flags.all = false ∧ depth = 1 then some g
        else
          edge.inputs.foldlM
            (fun g input => targetsTraverse st flags fuel input (depth - 1) (indent + 1) g) g

/-- `targetsCommand.run` once the manifest is loaded into `st`: `Traverse` from each root node,
with `depth` set to `0` by `-rule`, and then with `-rule` the rule's targets, sorted, one a
line.  The lines written to `w`; `none` when the fuel runs out. -/
def targetsRun (fuel : Nat) (st : State) (flags : TargetsFlags) (depth : Int) :
    Option (List (List UInt8)) :=
  let depth := if flags.requested then 0 else depth
  (st.rootNodes.foldlM (fun g node => targetsTraverse st flags fuel node depth 0 g)
      ⟨[], [], []⟩).map fun g =>
    if flags.requested then
      g.out ++ (g.ruleTargets.insertionSort (· ≤ ·)).map (· ++ str "\n")
    else g.out

section Fuel

variable {st : State} {flags : TargetsFlags}

/-- A call of `Traverse` that returns with some fuel returns the same with one more. -/
theorem targetsTraverse_succ {fuel : Nat} {node : List UInt8} {depth : Int} {indent : Nat}
    {g g' : TargetsGraph} (h : targetsTraverse st flags fuel node depth indent g = some g') :
    targetsTraverse st flags (fuel + 1) node depth indent g = some g' := by
  induction fuel generalizing node depth indent g g' with
  | zero => cases h
  | succ fuel ih =>
    rw [targetsTraverse] at h ⊢
    by_cases seen : node ∈ g.seen
    · rwa [if_pos seen] at h ⊢
    rw [if_neg seen] at h ⊢
    dsimp only at h ⊢
    cases hedge : st.inEdge node with
    | none => rwa [hedge] at h
    | some edge =>
      rw [hedge] at h
      dsimp only at h ⊢
      split at h
      · rwa [if_pos ‹_›]
      · rw [if_neg ‹_›]
        exact foldlM_some_of_some (fun _ _ _ => ih) _ _ _ h

/-- A run that returns with some fuel returns the same with more. -/
theorem targetsRun_of_le {fuel fuel' : Nat} {depth : Int} {out : List (List UInt8)}
    (h : targetsRun fuel st flags depth = some out) (more : fuel ≤ fuel') :
    targetsRun fuel' st flags depth = some out := by
  induction fuel', more using Nat.le_induction with
  | base => exact h
  | succ fuel' _ ih =>
    simp only [targetsRun, Option.map_eq_some'] at ih ⊢
    obtain ⟨g, run, rfl⟩ := ih
    exact ⟨g, foldlM_some_of_some (fun _ _ _ => targetsTraverse_succ) _ _ _ run, rfl⟩

end Fuel

/-! ## What a run without `-rule` or `-all` writes -/

/-- A line `Traverse` writes without `-rule` or `-all`: the node, its indent and its in-edge. -/
structure TargetEntry where
  indent : Nat
  node : List UInt8
  edge : Edge
  deriving DecidableEq, Repr

/-- The text of the line: `%s%s: %s\n` with `indent` spaces, the path and the rule's name. -/
def TargetEntry.line (w : TargetEntry) : List UInt8 :=
  List.replicate w.indent 32 ++ w.node ++ str ": " ++ w.edge.rule ++ str "\n"

/-- The lines written so far are those of the entries `ws`: each node once, each seen, with its
in-edge, and indented by the length of a walk to it from a root, which is below `d`. -/
structure Written (st : State) (d : Int) (g : TargetsGraph) (ws : List TargetEntry) : Prop where
  out_eq : g.out = ws.map TargetEntry.line
  nodup : (ws.map TargetEntry.node).Nodup
  each : ∀ w ∈ ws, w.node ∈ g.seen ∧ st.inEdge w.node = some w.edge ∧ (w.indent : Int) < d ∧
    ∃ root ∈ st.rootNodes, Reaches st root w.node w.indent

section Written

variable {st : State} {flags : TargetsFlags} {d : Int}

/-- Marking a node seen keeps what the lines say. -/
theorem Written.see {g : TargetsGraph} {ws : List TargetEntry} (written : Written st d g ws)
    (node : List UInt8) : Written st d { g with seen := node :: g.seen } ws :=
  ⟨written.out_eq, written.nodup, fun w mem =>
    ⟨List.mem_cons_of_mem _ (written.each w mem).1, (written.each w mem).2⟩⟩

/-- Writing the line of a node seen just now, at the length of a walk to it from a root, keeps
what the lines say. -/
theorem Written.write {g : TargetsGraph} {ws : List TargetEntry} (written : Written st d g ws)
    {w : TargetEntry} (fresh : w.node ∉ g.seen) (inEdge : st.inEdge w.node = some w.edge)
    (below : (w.indent : Int) < d)
    (reach : ∃ root ∈ st.rootNodes, Reaches st root w.node w.indent) :
    Written st d { g with seen := w.node :: g.seen, out := g.out ++ [w.line] } (ws ++ [w]) := by
  refine ⟨by simp [written.out_eq], ?_, fun w' mem => ?_⟩
  · rw [List.map_append, List.nodup_append]
    refine ⟨written.nodup, List.nodup_singleton _, fun a ha hb => ?_⟩
    obtain ⟨w', mem', rfl⟩ := List.mem_map.1 ha
    rw [List.map_singleton, List.mem_singleton] at hb
    exact fresh (hb ▸ (written.each w' mem').1)
  · rcases List.mem_append.1 mem with old | new
    · exact (written.see w.node).each w' old
    · rw [List.mem_singleton.1 new]
      exact ⟨List.mem_cons_self _ _, inEdge, below, reach⟩

/-- Without `-rule` or `-all`, a call of `Traverse` at a depth of at least `1`, on a node whose
indent is the length of a walk to it from a root and adds up with the depth to `d`, returns once
its fuel reaches the depth, and keeps what the lines say. -/
theorem targetsTraverse_written (noRule : flags.requested = false) (notAll : flags.all = false) :
    ∀ (fuel : Nat) (node : List UInt8) (depth : Int) (indent : Nat) (g : TargetsGraph)
      (ws : List TargetEntry), depth ≤ fuel → 1 ≤ depth → indent + depth = d →
      (∃ root ∈ st.rootNodes, Reaches st root node indent) → Written st d g ws →
      ∃ g' ws', targetsTraverse st flags fuel node depth indent g = some g' ∧
        Written st d g' ws' := by
  intro fuel
  induction fuel with
  | zero => intro _ _ _ _ _ enough deep; omega
  | succ fuel ih =>
    intro node depth indent g ws enough deep sum reach written
    rw [targetsTraverse]
    by_cases seen : node ∈ g.seen
    · exact ⟨g, ws, if_pos seen, written⟩
    rw [if_neg seen]
    dsimp only
    cases hedge : st.inEdge node with
    | none => exact ⟨_, ws, by simp [noRule], written.see node⟩
    | some edge =>
      have written' := written.write (w := ⟨indent, node, edge⟩) seen hedge
        (show (indent : Int) < d by omega) reach
      simp only [noRule, notAll, Bool.false_eq_true, if_false, true_and]
      split
      · exact ⟨_, _, rfl, written'⟩
      · -- below depth `1`: each input, one edge further from the root
        obtain ⟨root, isRoot, above⟩ := reach
        obtain ⟨g', run, ws', written''⟩ :=
          foldlM_exists (P := fun g => ∃ ws, Written st d g ws) edge.inputs
            (fun input mem g ⟨ws, written⟩ => by
              obtain ⟨g', ws', call, written'⟩ := ih input (depth - 1) (indent + 1) g ws
                (by omega) (by omega) (by push_cast; omega)
                ⟨root, isRoot, .tail above hedge mem⟩ written
              exact ⟨g', call, ws', written'⟩)
            _ ⟨_, written'⟩
        exact ⟨g', ws', run, written''⟩

end Written

/-- Without `-rule` or `-all` and for a depth `d ≥ 1`, `siso query targets` returns once its fuel
reaches `d`, and writes the lines of entries `ws` in which each node appears once, with its
in-edge, indented by the length of a walk to it along input edges from a root, which is below
`d`. -/
theorem targets_written_within_depth {st : State} {flags : TargetsFlags}
    (noRule : flags.requested = false) (notAll : flags.all = false) {d : Int} (positive : 1 ≤ d)
    {fuel : Nat} (enough : d ≤ fuel) :
    ∃ (out : List (List UInt8)) (ws : List TargetEntry), targetsRun fuel st flags d = some out ∧
      out = ws.map TargetEntry.line ∧
      (ws.map TargetEntry.node).Nodup ∧ ∀ w ∈ ws, st.inEdge w.node = some w.edge ∧
        (w.indent : Int) < d ∧ ∃ root ∈ st.rootNodes, Reaches st root w.node w.indent := by
  obtain ⟨g, run, ws, written⟩ :=
    foldlM_exists (P := fun g => ∃ ws, Written st d g ws) st.rootNodes
      (fun root isRoot g ⟨ws, written⟩ => by
        obtain ⟨g', ws', call, written'⟩ := targetsTraverse_written noRule notAll fuel root d 0
          g ws enough positive (by simp) ⟨root, isRoot, .refl⟩ written
        exact ⟨g', call, ws', written'⟩)
      ⟨[], [], []⟩ ⟨[], ⟨rfl, List.nodup_nil, fun _ h => absurd h (List.not_mem_nil _)⟩⟩
  refine ⟨g.out, ws, ?_, written.out_eq, written.nodup, fun w mem => (written.each w mem).2⟩
  simp [targetsRun, noRule, run]

/-- `R` links `A` and `B`, `A` is compiled from `B`, `B` from `C`, and `C` is generated. -/
def deepGraph : State :=
  ⟨[⟨str "link", str "link A B", [str "A", str "B"], [str "R"]⟩,
    ⟨str "cc", str "cc B", [str "B"], [str "A"]⟩,
    ⟨str "cc", str "cc C", [str "C"], [str "B"]⟩,
    ⟨str "gen", str "gen", [], [str "C"]⟩]⟩

/-- `siso query targets` with neither `-rule` nor `-all`. -/
def depthFlags : TargetsFlags := ⟨[], false, false⟩

/-- With `-depth 3`, `C` has an in-edge and lies at distance `2` from the root `R`, through `B`,
but is never written: `B` was reached first through `A`, at depth `1`. -/
theorem targets_depth_skips_input :
    (∀ fuel, 3 ≤ fuel → targetsRun fuel deepGraph depthFlags 3 =
      some [str "R: link\n", str " A: cc\n", str "  B: cc\n"]) ∧
    deepGraph.rootNodes = [str "R"] ∧
    (deepGraph.inEdge (str "R")).map Edge.inputs = some [str "A", str "B"] ∧
    (deepGraph.inEdge (str "B")).map Edge.inputs = some [str "C"] ∧
    (deepGraph.inEdge (str "C")).isSome = true :=
  ⟨fun _ more => targetsRun_of_le (by decide) more, by decide, by decide, by decide, by decide⟩

theorem targets_written_within_depth_deep :
    (depthFlags.requested = false ∧ depthFlags.all = false ∧ (1 : Int) ≤ 3 ∧
      (3 : Int) ≤ (3 : Nat)) ∧
    ∃ (out : List (List UInt8)) (ws : List TargetEntry),
      targetsRun 3 deepGraph depthFlags 3 = some out ∧ out = ws.map TargetEntry.line ∧
      (ws.map TargetEntry.node).Nodup ∧ ∀ w ∈ ws, deepGraph.inEdge w.node = some w.edge ∧
        (w.indent : Int) < 3 ∧
          ∃ root ∈ deepGraph.rootNodes, Reaches deepGraph root w.node w.indent :=
  ⟨⟨rfl, rfl, by decide, by decide⟩,
    targets_written_within_depth rfl rfl (by decide) (by decide)⟩

end Siso.Query
