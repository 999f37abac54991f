import Siso.Go.Strings
import Siso.Query.Graph

/-!
# `siso query commands`

`run` calls `commandsGraph.Traverse` on each target with one `seen` set shared by all the calls.
`Traverse` looks the target up, traverses the inputs of its in-edge, and then prints the edge's
`command`.

`seen` holds paths, not edges, so an edge with two outputs is printed once for each output the
traversal reaches: `siso query commands a.o a.d`, where one compile writes both `a.o` and its
depfile `a.d`, prints the compile twice.

The rest of the contract holds on an acyclic graph, given as a rank that drops along every input
edge.  `Traversed` says what the lines printed so far say, with `stack` the nodes whose
`Traverse` is running: a node seen is on the stack or finished, its in-edge printed and the
inputs of that edge seen.  A node the traversal meets again ranks below every node on the stack,
so it is finished; hence each edge is printed after the in-edges of its inputs, the run prints
the in-edge of every node below a target, and it returns once its fuel is above the ranks of
the targets.
-/

namespace Siso.Query

open Go

/-- The error of `Traverse`: `target not found: %q`. -/
structure TargetNotFound where
  target : List UInt8
  deriving DecidableEq, Repr

/-- What `Traverse` changes of the `commandsGraph`: `seen`, and the lines printed. -/
structure CommandsGraph where
  seen : List (List UInt8)
  out : List (List UInt8)
  deriving DecidableEq, Repr

/-- What the caller of a Go function that returns an `error` does next: on `nil` it goes on with
`k` from the state the call left, and it returns an error as it is; `none` is running out of
fuel. -/
def thenOk (r : Option (Except TargetNotFound CommandsGraph))
    (k : CommandsGraph → Option (Except TargetNotFound CommandsGraph)) :
    Option (Except TargetNotFound CommandsGraph) :=
  match r with
  | none => none
  | some (.error err) => some (.error err)
  | some (.ok g) => k g

/-- `for _, p := range ps { if err := visit(p); err != nil { return err } }`, on the state
`g`. -/
def forEachPath
    (visit : List UInt8 → CommandsGraph → Option (Except TargetNotFound CommandsGraph)) :
    List (List UInt8) → CommandsGraph → Option (Except TargetNotFound CommandsGraph)
  | [], g => some (.ok g)
  | p :: ps, g => thenOk (visit p g) (forEachPath visit ps)

/-- `g.Traverse(ctx, state, target)`, with `fuel` for its nesting; `none` when the fuel runs
out. -/
def commandsTraverse (st : State) :
    Nat → List UInt8 → CommandsGraph → Option (Except TargetNotFound CommandsGraph)
  | 0, _, _ => none
  | fuel + 1, target, g =>
    if target ∈ g.seen then some (.ok g)
    else
      let g := { g with seen := target :: g.seen }
      if !st.lookupNodeByPath target then some (.error ⟨target⟩)
      else
        match st.inEdge target with
        | none => some (.ok g)
        | some edge =>
          thenOk (forEachPath (commandsTraverse st fuel) edge.inputs g) fun g =>
            some (.ok { g with out := g.out ++ [edge.command ++ str "\n"] })

/-- `commandsCommand.run` once the manifest is loaded into `st`, `targets` being the paths of
the nodes `state.Targets(args)` returns: the lines printed, or the error; `none` when the fuel
runs out. -/
def commandsRun (fuel : Nat) (st : State) (targets : List (List UInt8)) :
    Option (Except TargetNotFound (List (List UInt8))) :=
  (forEachPath (commandsTraverse st fuel) targets ⟨[], []⟩).map fun r => r.map (·.out)

section Fuel

variable {st : State}

/-- A call and its continuation that return with some fuel return the same with more. -/
theorem thenOk_of_some {r r' : Option (Except TargetNotFound CommandsGraph)}
    {k k' : CommandsGraph → Option (Except TargetNotFound CommandsGraph)}
    (first : ∀ x, r = some x → r' = some x) (rest : ∀ g x, k g = some x → k' g = some x)
    {x : Except TargetNotFound CommandsGraph} (h : thenOk r k = some x) :
    thenOk r' k' = some x := by
  cases r with
  | none => cases h
  | some r =>
    rw [first r rfl]
    cases r with
    | error err => exact h
    | ok g => exact rest g x h

/-- A loop whose body returns with some fuel returns the same when the body is given more. -/
theorem forEachPath_of_some {visit visit' : List UInt8 → CommandsGraph →
      Option (Except TargetNotFound CommandsGraph)}
    (more : ∀ p g r, visit p g = some r → visit' p g = some r) (ps : List (List UInt8)) :
    ∀ (g : CommandsGraph) (r : Except TargetNotFound CommandsGraph),
      forEachPath visit ps g = some r → forEachPath visit' ps g = some r := by
  induction ps with
  | nil => exact fun _ _ h => h
  | cons p ps ih => exact fun g r h => thenOk_of_some (more p g) ih h

/-- A call of `Traverse` that returns with some fuel returns the same with one more. -/
theorem commandsTraverse_succ {fuel : Nat} {target : List UInt8} {g : CommandsGraph}
    {r : Except TargetNotFound CommandsGraph} (h : commandsTraverse st fuel target g = some r) :
    commandsTraverse st (fuel + 1) target g = some r := by
  induction fuel generalizing target g r with
  | zero => cases h
  | succ fuel ih =>
    rw [commandsTraverse] at h ⊢
    by_cases seen : target ∈ g.seen
    · rwa [if_pos seen] at h ⊢
    rw [if_neg seen] at h ⊢
    dsimp only at h ⊢
    split at h
    · rwa [if_pos ‹_›]
    rw [if_neg ‹_›]
    cases hedge : st.inEdge target with
    | none => rwa [hedge] at h
    | some edge =>
      rw [hedge] at h
      exact thenOk_of_some (forEachPath_of_some (fun _ _ _ h => ih h) _ _) (fun _ _ h => h) h

/-- A run that returns with some fuel returns the same with more. -/
theorem commandsRun_of_le {fuel fuel' : Nat} {targets : List (List UInt8)}
    {r : Except TargetNotFound (List (List UInt8))}
    (h : commandsRun fuel st targets = some r) (more : fuel ≤ fuel') :
    commandsRun fuel' st targets = some r := by
  induction fuel', more using Nat.le_induction with
  | base => exact h
  | succ fuel' _ ih =>
    simp only [commandsRun, Option.map_eq_some'] at ih ⊢
    obtain ⟨g, run, rfl⟩ := ih
    exact ⟨g, forEachPath_of_some (fun _ _ _ h => commandsTraverse_succ h) _ _ _ run, rfl⟩

end Fuel

/-! ## What a run prints on an acyclic graph -/

/-- The line `Traverse` prints for an edge: `%s\n` of its `command`. -/
def Edge.commandLine (e : Edge) : List UInt8 := e.command ++ str "\n"

/-- A node whose traversal is over: its in-edge, if it has one, is printed, and the inputs of
that edge are seen. -/
def Finished (st : State) (seen : List (List UInt8)) (printed : List Edge) (p : List UInt8) :
    Prop :=
  ∀ e, st.inEdge p = some e → e ∈ printed ∧ ∀ i ∈ e.inputs, i ∈ seen

/-- What the lines printed so far say, `printed` being their edges in order and `stack` the
nodes whose `Traverse` is running: every node seen is on the stack or finished, every edge
printed comes after the in-edges of its inputs, and is the in-edge of a node below a target. -/
structure Traversed (st : State) (targets stack : List (List UInt8)) (g : CommandsGraph)
    (printed : List Edge) : Prop where
  out_eq : g.out = printed.map Edge.commandLine
  seen : ∀ p ∈ g.seen, p ∈ stack ∨ Finished st g.seen printed p
  ordered : ∀ k (hk : k < printed.length), ∀ i ∈ printed[k].inputs, ∀ e,
    st.inEdge i = some e → e ∈ printed.take k
  below : ∀ e ∈ printed, ∃ t ∈ targets, ∃ o n, Reaches st t o n ∧ st.inEdge o = some e

section Traversed

variable {st : State} {targets stack : List (List UInt8)} {g : CommandsGraph}
  {printed : List Edge} {target : List UInt8}

theorem Finished.mono {seen seen' : List (List UInt8)} {printed' : List Edge} {p : List UInt8}
    (fin : Finished st seen printed p) (moreSeen : seen ⊆ seen')
    (morePrinted : printed ⊆ printed') :
    Finished st seen' printed' p :=
  fun e h => ⟨morePrinted (fin e h).1, fun i mem => moreSeen ((fin e h).2 i mem)⟩

/-- Marking a target seen puts it on the stack. -/
theorem Traversed.see (trav : Traversed st targets stack g printed) (target : List UInt8) :
    Traversed st targets (target :: stack) { g with seen := target :: g.seen } printed where
  out_eq := trav.out_eq
  seen p mem := by
    rcases List.mem_cons.1 mem with rfl | old
    · exact .inl (List.mem_cons_self _ _)
    · rcases trav.seen p old with onStack | fin
      · exact .inl (List.mem_cons_of_mem _ onStack)
      · exact .inr (fin.mono (List.subset_cons_self _ _) (List.Subset.refl _))
  ordered := trav.ordered
  below := trav.below

/-- A finished target leaves the stack. -/
theorem Traversed.pop (trav : Traversed st targets (target :: stack) g printed)
    (fin : Finished st g.seen printed target) : Traversed st targets stack g printed where
  out_eq := trav.out_eq
  seen p mem := by
    rcases trav.seen p mem with onStack | done
    · rcases List.mem_cons.1 onStack with rfl | below
      · exact .inr fin
      · exact .inl below
    · exact .inr done
  ordered := trav.ordered
  below := trav.below

/-- Printing the in-edge of a target below a target, once the in-edges of its inputs are
printed, keeps what the lines say. -/
theorem Traversed.print (trav : Traversed st targets stack g printed) {edge : Edge}
    (inEdge : st.inEdge target = some edge)
    (inputs : ∀ i ∈ edge.inputs, ∀ e, st.inEdge i = some e → e ∈ printed)
    (reach : ∃ t ∈ targets, ∃ n, Reaches st t target n) :
    Traversed st targets stack { g with out := g.out ++ [edge.commandLine] }
      (printed ++ [edge]) where
  out_eq := by simp [trav.out_eq]
  seen p mem := (trav.seen p mem).imp_right fun fin =>
    fin.mono (List.Subset.refl _) (List.subset_append_left _ _)
  ordered k hk i mem e h := by
    rw [List.length_append, List.length_singleton] at hk
    rcases Nat.lt_succ_iff_lt_or_eq.1 hk with old | rfl
    · rw [List.getElem_append_left old] at mem
      rw [List.take_append_of_le_length old.le]
      exact trav.ordered k old i mem e h
    · rw [List.getElem_append_right (Nat.le_refl _)] at mem
      rw [List.take_left]
      exact inputs i (by simpa using mem) e h
  below e mem := by
    rcases List.mem_append.1 mem with old | new
    · exact trav.below e old
    · obtain ⟨t, isTarget, n, r⟩ := reach
      exact ⟨t, isTarget, target, n, r, (List.mem_singleton.1 new) ▸ inEdge⟩

/-- Everything below a seen node is seen, once the stack is empty. -/
theorem Traversed.seen_of_reaches (trav : Traversed st targets [] g printed) {t p : List UInt8}
    {n : Nat} (seen : t ∈ g.seen) (reach : Reaches st t p n) : p ∈ g.seen := by
  induction reach with
  | refl => exact seen
  | tail _ inEdge mem ih =>
    rcases trav.seen _ ih with onStack | fin
    · cases onStack
    · exact (fin _ inEdge).2 _ mem

end Traversed

/-- A loop whose body returns without error, from every state with `P done` for the paths
`done` before it, and reaches `P (done ++ [p])`, returns without error with `P` of them all. -/
theorem forEachPath_exists {visit : List UInt8 → CommandsGraph →
      Option (Except TargetNotFound CommandsGraph)}
    {P : List (List UInt8) → CommandsGraph → Prop} (ps : List (List UInt8))
    (body : ∀ p ∈ ps, ∀ done g, P done g → ∃ g', visit p g = some (.ok g') ∧ P (done ++ [p]) g') :
    ∀ done g, P done g → ∃ g', forEachPath visit ps g = some (.ok g') ∧ P (done ++ ps) g' := by
  induction ps with
  | nil => exact fun done g h => ⟨g, rfl, by simpa using h⟩
  | cons p ps ih =>
    intro done g h
    obtain ⟨g', first, h'⟩ := body p (List.mem_cons_self p ps) done g h
    obtain ⟨g'', rest, h''⟩ := ih (fun p' mem => body p' (List.mem_cons_of_mem p mem)) _ g' h'
    exact ⟨g'', by simpa only [forEachPath, first, thenOk] using rest, by simpa using h''⟩

/-- On an acyclic graph, with a rank that drops along every input edge, a call of `Traverse` on a
node below a target, whose rank is below the fuel and below the ranks of the nodes on the
stack, returns without error, marks the node seen and finished, and keeps what the lines
say. -/
theorem commandsTraverse_traversed {st : State} {rank : List UInt8 → Nat}
    (acyclic : ∀ e ∈ st.edges, ∀ o ∈ e.outputs, ∀ i ∈ e.inputs, rank i < rank o)
    {targets : List (List UInt8)} :
    ∀ (fuel : Nat) (target : List UInt8) (stack : List (List UInt8)) (g : CommandsGraph)
      (printed : List Edge), rank target < fuel → (∀ a ∈ stack, rank target < rank a) →
      st.lookupNodeByPath target = true → (∃ t ∈ targets, ∃ n, Reaches st t target n) →
      Traversed st targets stack g printed →
      ∃ g' printed', commandsTraverse st fuel target g = some (.ok g') ∧
        Traversed st targets stack g' printed' ∧ target ∈ g'.seen ∧ g.seen ⊆ g'.seen := by
  intro fuel
  induction fuel with
  | zero => intro _ _ _ _ low; omega
  | succ fuel ih =>
    intro target stack g printed low above found reach trav
    rw [commandsTraverse]
    by_cases seen : target ∈ g.seen
    · exact ⟨g, printed, if_pos seen, trav, seen, List.Subset.refl _⟩
    rw [if_neg seen]
    dsimp only
    rw [if_neg (by simp [found])]
    have trav₁ := trav.see target
    cases hedge : st.inEdge target with
    | none =>
      exact ⟨_, printed, rfl, trav₁.pop fun e h => absurd (hedge.symm.trans h) (by simp),
        List.mem_cons_self _ _, List.subset_cons_self _ _⟩
    | some edge =>
      have lower : ∀ i ∈ edge.inputs, rank i < rank target := fun i mem =>
        acyclic edge (st.inEdge_mem hedge).1 target (st.inEdge_mem hedge).2 i mem
      obtain ⟨g₂, loop, ⟨printed₂, trav₂⟩, grown, inputsSeen⟩ :=
        forEachPath_exists (P := fun done g' =>
            (∃ printed', Traversed st targets (target :: stack) g' printed') ∧
              target :: g.seen ⊆ g'.seen ∧ ∀ i ∈ done, i ∈ g'.seen) edge.inputs
          (fun i mem done g' ⟨⟨printed', trav'⟩, grown, doneSeen⟩ => by
            obtain ⟨t, isTarget, n, r⟩ := reach
            obtain ⟨g'', printed'', call, trav'', seen'', grown''⟩ :=
              ih i (target :: stack) g' printed' (by have := lower i mem; omega)
                (fun a onStack => by
                  rcases List.mem_cons.1 onStack with rfl | below
                  · exact lower i mem
                  · exact (lower i mem).trans (above a below))
                (st.lookupNodeByPath_input (st.inEdge_mem hedge).1 mem)
                ⟨t, isTarget, n + 1, .tail r hedge mem⟩ trav'
            refine ⟨g'', call, ⟨printed'', trav''⟩, fun _ h => grown'' (grown h), fun i' mem' => ?_⟩
            rcases List.mem_append.1 mem' with old | new
            · exact grown'' (doneSeen i' old)
            · exact List.mem_singleton.1 new ▸ seen'')
          [] { g with seen := target :: g.seen } ⟨⟨printed, trav₁⟩, List.Subset.refl _, by simp⟩
      have finishedInputs : ∀ i ∈ edge.inputs, ∀ e, st.inEdge i = some e → e ∈ printed₂ :=
        fun i mem e h => by
          rcases trav₂.seen i (inputsSeen i (by simpa using mem)) with onStack | fin
          · rcases List.mem_cons.1 onStack with rfl | below
            · exact absurd (lower _ mem) (Nat.lt_irrefl _)
            · exact absurd (above _ below) (Nat.lt_asymm (lower i mem))
          · exact (fin e h).1
      refine ⟨_, printed₂ ++ [edge], by dsimp only; rw [loop]; rfl,
        (trav₂.print hedge finishedInputs reach).pop fun e h => ?_,
        grown (List.mem_cons_self _ _), fun p mem => grown (List.mem_cons_of_mem _ mem)⟩
      rw [hedge, Option.some.injEq] at h
      subst h
      exact ⟨List.mem_append_right _ (List.mem_singleton_self _),
        fun i mem => inputsSeen i (by simpa using mem)⟩

/-- On an acyclic graph, with a rank that drops along every input edge and fuel above the ranks
of the targets, `siso query commands` on targets that are nodes of the graph prints without
error the commands of edges `printed`: the in-edge of every node below a target, only such
edges, and each after the in-edges of its inputs. -/
theorem commands_dependency_order {st : State} {rank : List UInt8 → Nat}
    (acyclic : ∀ e ∈ st.edges, ∀ o ∈ e.outputs, ∀ i ∈ e.inputs, rank i < rank o)
    {targets : List (List UInt8)} (found : ∀ t ∈ targets, st.lookupNodeByPath t = true)
    {fuel : Nat} (enough : ∀ t ∈ targets, rank t < fuel) :
    ∃ printed : List Edge,
      commandsRun fuel st targets = some (.ok (printed.map Edge.commandLine)) ∧
      (∀ t ∈ targets, ∀ p n, Reaches st t p n → ∀ e, st.inEdge p = some e → e ∈ printed) ∧
      (∀ e ∈ printed, ∃ t ∈ targets, ∃ o n, Reaches st t o n ∧ st.inEdge o = some e) ∧
      ∀ k (hk : k < printed.length), ∀ i ∈ printed[k].inputs, ∀ e, st.inEdge i = some e →
        e ∈ printed.take k := by
  obtain ⟨g, run, ⟨printed, trav⟩, targetsSeen⟩ :=
    forEachPath_exists (P := fun done g =>
        (∃ printed, Traversed st targets [] g printed) ∧ ∀ t ∈ done, t ∈ g.seen) targets
      (fun t isTarget done g ⟨⟨printed, trav⟩, doneSeen⟩ => by
        obtain ⟨g', printed', call, trav', seen', grown⟩ :=
          commandsTraverse_traversed acyclic fuel t [] g printed (enough t isTarget)
            (fun _ h => absurd h (List.not_mem_nil _)) (found t isTarget)
            ⟨t, isTarget, 0, .refl⟩ trav
        refine ⟨g', call, ⟨printed', trav'⟩, fun t' mem => ?_⟩
        rcases List.mem_append.1 mem with old | new
        · exact grown (doneSeen t' old)
        · exact List.mem_singleton.1 new ▸ seen')
      [] ⟨[], []⟩ ⟨⟨[], ⟨rfl, fun _ h => absurd h (List.not_mem_nil _),
        fun _ hk => absurd hk (Nat.not_lt_zero _), fun _ h => absurd h (List.not_mem_nil _)⟩⟩,
        by simp⟩
  refine ⟨printed, by simp [commandsRun, run, trav.out_eq, Except.map],
    fun t isTarget p n r e h => ?_, trav.below, trav.ordered⟩
  rcases trav.seen p (trav.seen_of_reaches (targetsSeen t (by simpa using isTarget)) r) with
    onStack | fin
  · cases onStack
  · exact (fin e h).1

/-- One compile writes the object `a.o` and its depfile `a.d`. -/
def depfileGraph : State :=
  ⟨[⟨str "cxx", str "clang++ -MD -MF a.d -c a.cc -o a.o", [str "a.cc"],
    [str "a.o", str "a.d"]⟩]⟩

/-- `siso query commands a.o a.d` prints the one compile twice. -/
theorem commands_two_outputs_twice :
    (∀ fuel, 2 ≤ fuel → commandsRun fuel depfileGraph [str "a.o", str "a.d"] =
      some (.ok [str "clang++ -MD -MF a.d -c a.cc -o a.o\n",
        str "clang++ -MD -MF a.d -c a.cc -o a.o\n"])) ∧
    depfileGraph.edges.length = 1 :=
  ⟨fun _ more => commandsRun_of_le (by rfl) more, rfl⟩

/-- A rank for `depfileGraph`: the source below the compile's outputs. -/
def depfileRank (p : List UInt8) : Nat := if p = str "a.cc" then 0 else 1

theorem commands_dependency_order_depfile :
    ((∀ e ∈ depfileGraph.edges, ∀ o ∈ e.outputs, ∀ i ∈ e.inputs, depfileRank i < depfileRank o) ∧
      (∀ t ∈ [str "a.o", str "a.d"], depfileGraph.lookupNodeByPath t = true) ∧
      ∀ t ∈ [str "a.o", str "a.d"], depfileRank t < 2) ∧
    ∃ printed : List Edge,
      commandsRun 2 depfileGraph [str "a.o", str "a.d"] =
        some (.ok (printed.map Edge.commandLine)) ∧
      (∀ t ∈ [str "a.o", str "a.d"], ∀ p n, Reaches depfileGraph t p n → ∀ e,
        depfileGraph.inEdge p = some e → e ∈ printed) ∧
      (∀ e ∈ printed, ∃ t ∈ [str "a.o", str "a.d"], ∃ o n, Reaches depfileGraph t o n ∧
        depfileGraph.inEdge o = some e) ∧
      ∀ k (hk : k < printed.length), ∀ i ∈ printed[k].inputs, ∀ e,
        depfileGraph.inEdge i = some e → e ∈ printed.take k :=
  ⟨⟨by decide, by decide, by decide⟩,
    @commands_dependency_order depfileGraph depfileRank (by decide) _ (by decide) 2 (by decide)⟩

end Siso.Query
