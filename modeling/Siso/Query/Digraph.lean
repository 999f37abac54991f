import Mathlib.Data.List.Nodup
import Siso.Query.Commands

/-!
# `siso query digraph`

`digraphCommand.run` calls `digraph.Traverse` on each target with one `seen` set shared by all
the calls.  `Traverse` marks the target seen, looks it up, traverses the inputs of its in-edge
(`Inputs()`, or `TriggerInputs()` under `-order_only=false`), and then prints one line: the
target followed by those inputs, or the target alone when it has no in-edge.  Its state is that
of `commandsGraph`, the paths seen and the lines printed, so it is a `CommandsGraph` here, and
its loop over the inputs is `forEachPath`.

Here `seen` is keyed by what a line is about, a node, so every node below the targets is
printed exactly once.  A node is marked seen before its inputs are traversed, so each nested
call starts on a node not seen yet: the nodes not seen bound the nesting, and the run returns on
every graph, cycles included.  A node's line comes after the lines of the inputs it lists, but
for an input from which the node itself can be reached, that is an input on a cycle through
the node; on an acyclic graph every line comes after the lines of its inputs.

`TriggerInputs` is `ninjautil`'s and not among the sources modelled; `triggerInputs` stands for
it, any selection of an edge's inputs.  `Listed` is the invariant of the traversal, and
`Listed.see` and `Listed.printPop` are its two moves: a node pushed on the stack of running
calls, and a node printed and popped.
-/

namespace Siso.Query

open Go

/-- `' '`. -/
def space : UInt8 := 32

/-- The inputs `Traverse` follows: `edge.Inputs()`, or `edge.TriggerInputs()` under
`-order_only=false`. -/
def edgeInputs (triggerInputs : Edge → List (List UInt8)) (orderOnly : Bool) (edge : Edge) :
    List (List UInt8) :=
  if orderOnly then edge.inputs else triggerInputs edge

/-- `d.Traverse(ctx, state, target)`, with `fuel` for its nesting; `none` when the fuel runs
out.  `inputs` collects the path of each input after its traversal returns, so once the loop is
over it holds all of them. -/
def digraphTraverse (st : State) (triggerInputs : Edge → List (List UInt8)) (orderOnly : Bool) :
    Nat → List UInt8 → CommandsGraph → Option (Except TargetNotFound CommandsGraph)
  | 0, _, _ => none
  | fuel + 1, target, g =>
    if target ∈ g.seen then some (.ok g)
    else
      let g := { g with seen := target :: g.seen }
      if !st.lookupNodeByPath target then some (.error ⟨target⟩)
      else
        match st.inEdge target with
        | some edge =>
          let inputs := edgeInputs triggerInputs orderOnly edge
          thenOk (forEachPath (digraphTraverse st triggerInputs orderOnly fuel) inputs g)
            fun g => some (.ok { g with
              out := g.out ++ [target ++ str " " ++ joinWith inputs space ++ str "\n"] })
        | none => some (.ok { g with out := g.out ++ [target ++ str "\n"] })

/-- `digraphCommand.run` once the manifest is loaded into `st`, `targets` being the paths of the
nodes `state.Targets(args)` returns: the lines printed, or the error; `none` when the fuel runs
out. -/
def digraphRun (fuel : Nat) (st : State) (triggerInputs : Edge → List (List UInt8))
    (orderOnly : Bool) (targets : List (List UInt8)) :
    Option (Except TargetNotFound (List (List UInt8))) :=
  (forEachPath (digraphTraverse st triggerInputs orderOnly fuel) targets ⟨[], []⟩).map
    fun r => r.map (·.out)

/-! ## What a run prints -/

/-- The line `Traverse` prints for a node, `sel` selecting the inputs of its in-edge. -/
def digraphLine (st : State) (sel : Edge → List (List UInt8)) (p : List UInt8) : List UInt8 :=
  match st.inEdge p with
  | some edge => p ++ str " " ++ joinWith (sel edge) space ++ str "\n"
  | none => p ++ str "\n"

/-- The nodes of the state: the paths its edges read or write. -/
def State.nodes (st : State) : List (List UInt8) :=
  st.edges.flatMap fun e => e.inputs ++ e.outputs

theorem State.lookupNodeByPath_iff {st : State} {p : List UInt8} :
    st.lookupNodeByPath p = true ↔ p ∈ st.nodes := by
  simp [State.lookupNodeByPath, State.nodes]

/-- The nodes not seen yet, each counted as often as `State.nodes` lists it. -/
def State.unseen (st : State) (seen : List (List UInt8)) : Nat :=
  st.nodes.countP fun p => p ∉ seen

/-- A stronger predicate holds of fewer elements, and of strictly fewer when it fails on one
element where the weaker one holds. -/
theorem countP_lt_countP {α : Type} {p q : α → Bool} :
    ∀ {l : List α}, (∀ x ∈ l, q x → p x) → (∃ x ∈ l, p x ∧ ¬q x) → l.countP q < l.countP p
  | [], _, ⟨_, mem, _⟩ => absurd mem (List.not_mem_nil _)
  | a :: l, imp, ⟨x, mem, px, nqx⟩ => by
    have le := List.countP_mono_left fun y hy => imp y (List.mem_cons_of_mem a hy)
    have head := imp a (List.mem_cons_self a l)
    rw [List.countP_cons, List.countP_cons]
    rcases List.mem_cons.1 mem with rfl | mem
    · simp [px, nqx]; omega
    · have := countP_lt_countP (fun y hy => imp y (List.mem_cons_of_mem a hy)) ⟨x, mem, px, nqx⟩
      by_cases qa : q a
      · simp [qa, head qa]; omega
      · simp [qa]; split <;> omega

theorem State.unseen_le {st : State} {seen seen' : List (List UInt8)} (grown : seen ⊆ seen') :
    st.unseen seen' ≤ st.unseen seen :=
  List.countP_mono_left fun _ _ h => by
    simp only [decide_eq_true_eq] at h ⊢
    exact fun mem => h (grown mem)

/-- Marking a node seen lowers the count of the nodes not seen. -/
theorem State.unseen_cons_lt {st : State} {seen : List (List UInt8)} {p : List UInt8}
    (node : p ∈ st.nodes) (notSeen : p ∉ seen) : st.unseen (p :: seen) < st.unseen seen :=
  countP_lt_countP (fun _ _ h => by simp_all) ⟨p, node, by simpa using notSeen, by simp⟩

/-- `node` is `t` or lies below it along the inputs `sel` selects of in-edges. -/
inductive Under (st : State) (sel : Edge → List (List UInt8)) (t : List UInt8) :
    List UInt8 → Prop
  | refl : Under st sel t t
  | tail {node input : List UInt8} {edge : Edge} (above : Under st sel t node)
      (inEdge : st.inEdge node = some edge) (mem : input ∈ sel edge) : Under st sel t input

/-- What the lines printed so far say, `printed` being their nodes in order and `stack` the
nodes whose `Traverse` is running: a node seen is on the stack or printed with the inputs it
lists seen; no node is printed twice or while on the stack; every node printed is below a
target; and an input a line lists is printed before it, or the line's node is below that
input. -/
structure Listed (st : State) (sel : Edge → List (List UInt8)) (targets stack : List (List UInt8))
    (g : CommandsGraph) (printed : List (List UInt8)) : Prop where
  out_eq : g.out = printed.map (digraphLine st sel)
  seen : ∀ p ∈ g.seen, p ∈ stack ∨
    p ∈ printed ∧ ∀ e, st.inEdge p = some e → ∀ i ∈ sel e, i ∈ g.seen
  stack_seen : stack ⊆ g.seen
  printed_seen : printed ⊆ g.seen
  fresh : ∀ p ∈ stack, p ∉ printed
  nodup : printed.Nodup
  below : ∀ p ∈ printed, ∃ t ∈ targets, Under st sel t p
  ordered : ∀ k (hk : k < printed.length), ∀ e, st.inEdge printed[k] = some e →
    ∀ i ∈ sel e, i ∈ printed.take k ∨ Under st sel i printed[k]

section Listed

variable {st : State} {sel : Edge → List (List UInt8)} {targets stack : List (List UInt8)}
  {g : CommandsGraph} {printed : List (List UInt8)} {target : List UInt8}

theorem Listed.init (st : State) (sel : Edge → List (List UInt8)) (targets : List (List UInt8)) :
    Listed st sel targets [] ⟨[], []⟩ [] where
  out_eq := rfl
  seen _ h := absurd h (List.not_mem_nil _)
  stack_seen := List.nil_subset _
  printed_seen := List.nil_subset _
  fresh _ h := absurd h (List.not_mem_nil _)
  nodup := List.nodup_nil
  below _ h := absurd h (List.not_mem_nil _)
  ordered _ hk := absurd hk (Nat.not_lt_zero _)

/-- Marking a target not seen yet puts it on the stack. -/
theorem Listed.see (listed : Listed st sel targets stack g printed) (notSeen : target ∉ g.seen) :
    Listed st sel targets (target :: stack) { g with seen := target :: g.seen } printed where
  out_eq := listed.out_eq
  seen p mem := by
    rcases List.mem_cons.1 mem with rfl | old
    · exact .inl (List.mem_cons_self _ _)
    · exact (listed.seen p old).imp (List.mem_cons_of_mem _) fun ⟨done, inputs⟩ =>
        ⟨done, fun e h i mem => List.mem_cons_of_mem _ (inputs e h i mem)⟩
  stack_seen := List.cons_subset_cons _ listed.stack_seen
  printed_seen _ done := List.mem_cons_of_mem _ (listed.printed_seen done)
  fresh p mem := by
    rcases List.mem_cons.1 mem with rfl | old
    · exact fun done => notSeen (listed.printed_seen done)
    · exact listed.fresh p old
  nodup := listed.nodup
  below := listed.below
  ordered := listed.ordered

/-- Printing the line of the running target, once the inputs it lists are seen, and popping it
off the stack keeps what the lines say. -/
theorem Listed.printPop (listed : Listed st sel targets (target :: stack) g printed)
    (notOnStack : target ∉ stack) (reach : ∃ t ∈ targets, Under st sel t target)
    (ancestors : ∀ a ∈ stack, Under st sel a target)
    (inputsSeen : ∀ e, st.inEdge target = some e → ∀ i ∈ sel e, i ∈ g.seen) :
    Listed st sel targets stack { g with out := g.out ++ [digraphLine st sel target] }
      (printed ++ [target]) where
  out_eq := by simp [listed.out_eq]
  seen p mem := by
    rcases listed.seen p mem with onStack | ⟨done, inputs⟩
    · rcases List.mem_cons.1 onStack with rfl | below
      · exact .inr ⟨List.mem_append_right _ (List.mem_singleton_self _), inputsSeen⟩
      · exact .inl below
    · exact .inr ⟨List.mem_append_left _ done, inputs⟩
  stack_seen _ mem := listed.stack_seen (List.mem_cons_of_mem _ mem)
  printed_seen := List.append_subset.2
    ⟨listed.printed_seen, by simpa using listed.stack_seen (List.mem_cons_self _ _)⟩
  fresh p mem done := by
    rcases List.mem_append.1 done with old | new
    · exact listed.fresh p (List.mem_cons_of_mem _ mem) old
    · exact notOnStack (List.mem_singleton.1 new ▸ mem)
  nodup := List.nodup_append.2 ⟨listed.nodup, List.nodup_singleton _, fun p old new =>
    listed.fresh target (List.mem_cons_self _ _) (List.mem_singleton.1 new ▸ old)⟩
  below p mem := by
    rcases List.mem_append.1 mem with old | new
    · exact listed.below p old
    · exact List.mem_singleton.1 new ▸ reach
  ordered k hk e h i mem := by
    rw [List.length_append, List.length_singleton] at hk
    rcases Nat.lt_succ_iff_lt_or_eq.1 hk with old | rfl
    · rw [List.getElem_append_left old] at h ⊢
      rw [List.take_append_of_le_length old.le]
      exact listed.ordered k old e h i mem
    · rw [List.getElem_append_right (Nat.le_refl _)] at h ⊢
      simp only [Nat.sub_self, List.getElem_singleton, List.take_left] at h ⊢
      rcases listed.seen i (inputsSeen e h i mem) with onStack | ⟨done, -⟩
      · rcases List.mem_cons.1 onStack with rfl | below
        · exact .inr .refl
        · exact .inr (ancestors i below)
      · exact .inl done

/-- Everything below a seen node is seen, once the stack is empty. -/
theorem Listed.seen_of_under (listed : Listed st sel targets [] g printed) {t p : List UInt8}
    (seen : t ∈ g.seen) (under : Under st sel t p) : p ∈ g.seen := by
  induction under with
  | refl => exact seen
  | tail _ inEdge mem ih =>
    rcases listed.seen _ ih with onStack | ⟨-, inputs⟩
    · cases onStack
    · exact inputs _ inEdge _ mem

end Listed

/-- A call of `Traverse` on a node below a target, with the nodes on the stack above it and more
fuel than nodes not seen, returns without error, marks the node seen, and keeps what the lines
say. -/
theorem digraphTraverse_listed {st : State} {triggerInputs : Edge → List (List UInt8)}
    {orderOnly : Bool}
    (selected : ∀ e ∈ st.edges, ∀ i ∈ edgeInputs triggerInputs orderOnly e, i ∈ e.inputs)
    {targets : List (List UInt8)} :
    ∀ (fuel : Nat) (target : List UInt8) (stack : List (List UInt8)) (g : CommandsGraph)
      (printed : List (List UInt8)), st.unseen g.seen < fuel →
      st.lookupNodeByPath target = true →
      (∃ t ∈ targets, Under st (edgeInputs triggerInputs orderOnly) t target) →
      (∀ a ∈ stack, Under st (edgeInputs triggerInputs orderOnly) a target) →
      Listed st (edgeInputs triggerInputs orderOnly) targets stack g printed →
      ∃ g' printed', digraphTraverse st triggerInputs orderOnly fuel target g = some (.ok g') ∧
        Listed st (edgeInputs triggerInputs orderOnly) targets stack g' printed' ∧
        target ∈ g'.seen ∧ g.seen ⊆ g'.seen := by
  intro fuel
  induction fuel with
  | zero => intro _ _ _ _ few; omega
  | succ fuel ih =>
    intro target stack g printed few found reach ancestors listed
    rw [digraphTraverse]
    by_cases seen : target ∈ g.seen
    · exact ⟨g, printed, if_pos seen, listed, seen, List.Subset.refl _⟩
    rw [if_neg seen]
    dsimp only
    rw [if_neg (by simp [found])]
    have notOnStack : target ∉ stack := fun h => seen (listed.stack_seen h)
    have fewer := State.unseen_cons_lt (State.lookupNodeByPath_iff.1 found) seen
    cases hedge : st.inEdge target with
    | none =>
      have done := (listed.see seen).printPop notOnStack reach ancestors (by simp [hedge])
      simp only [digraphLine, hedge] at done
      exact ⟨_, _, rfl, done, List.mem_cons_self _ _, List.subset_cons_self _ _⟩
    | some edge =>
      obtain ⟨g₂, loop, ⟨printed₂, listed₂⟩, grown, inputsSeen⟩ :=
        forEachPath_exists (P := fun done g' =>
            (∃ printed', Listed st (edgeInputs triggerInputs orderOnly) targets (target :: stack)
              g' printed') ∧ target :: g.seen ⊆ g'.seen ∧ ∀ i ∈ done, i ∈ g'.seen)
          (edgeInputs triggerInputs orderOnly edge)
          (fun i mem done g' ⟨⟨printed', listed'⟩, grown', doneSeen⟩ => by
            have edgeMem := (st.inEdge_mem hedge).1
            obtain ⟨g'', printed'', call, listed'', seen'', grown''⟩ :=
              ih i (target :: stack) g' printed'
                ((State.unseen_le grown').trans_lt (by omega))
                (st.lookupNodeByPath_input edgeMem (selected edge edgeMem i mem))
                (reach.imp fun _ ⟨isTarget, under⟩ => ⟨isTarget, .tail under hedge mem⟩)
                (fun a onStack => by
                  rcases List.mem_cons.1 onStack with rfl | below
                  · exact .tail .refl hedge mem
                  · exact .tail (ancestors a below) hedge mem)
                listed'
            refine ⟨g'', call, ⟨printed'', listed''⟩, fun _ h => grown'' (grown' h),
              fun i' mem' => ?_⟩
            rcases List.mem_append.1 mem' with old | new
            · exact grown'' (doneSeen i' old)
            · exact List.mem_singleton.1 new ▸ seen'')
          [] { g with seen := target :: g.seen } ⟨⟨printed, listed.see seen⟩,
            List.Subset.refl _, by simp⟩
      have done := listed₂.printPop notOnStack reach ancestors fun e h i mem =>
        inputsSeen i (by rw [hedge, Option.some.injEq] at h; subst h; simpa using mem)
      simp only [digraphLine, hedge] at done
      exact ⟨_, _, by dsimp only; rw [loop]; rfl, done, grown (List.mem_cons_self _ _),
        fun p mem => grown (List.mem_cons_of_mem _ mem)⟩

/-- `TriggerInputs` selecting among an edge's inputs, so does `Traverse`. -/
theorem edgeInputs_subset {st : State} {triggerInputs : Edge → List (List UInt8)}
    (triggerSubset : ∀ e ∈ st.edges, ∀ i ∈ triggerInputs e, i ∈ e.inputs) (orderOnly : Bool) :
    ∀ e ∈ st.edges, ∀ i ∈ edgeInputs triggerInputs orderOnly e, i ∈ e.inputs := by
  intro e mem i h
  unfold edgeInputs at h
  split at h
  · exact h
  · exact triggerSubset e mem i h

/-- Traversing targets that are nodes one after the other from an empty state, with more fuel
than nodes, returns without error, every target seen. -/
theorem forEachTarget_listed {st : State} {triggerInputs : Edge → List (List UInt8)}
    {orderOnly : Bool}
    (selected : ∀ e ∈ st.edges, ∀ i ∈ edgeInputs triggerInputs orderOnly e, i ∈ e.inputs)
    {targets : List (List UInt8)} (found : ∀ t ∈ targets, st.lookupNodeByPath t = true)
    {fuel : Nat} (enough : st.nodes.length < fuel) :
    ∃ g printed, forEachPath (digraphTraverse st triggerInputs orderOnly fuel) targets ⟨[], []⟩ =
        some (.ok g) ∧ Listed st (edgeInputs triggerInputs orderOnly) targets [] g printed ∧
      ∀ t ∈ targets, t ∈ g.seen := by
  obtain ⟨g, run, ⟨printed, listed⟩, targetsSeen⟩ :=
    forEachPath_exists (P := fun done g =>
        (∃ printed, Listed st (edgeInputs triggerInputs orderOnly) targets [] g printed) ∧
          ∀ t ∈ done, t ∈ g.seen) targets
      (fun t isTarget done g ⟨⟨printed, listed⟩, doneSeen⟩ => by
        obtain ⟨g', printed', call, listed', seen', grown⟩ :=
          digraphTraverse_listed selected fuel t [] g printed
            ((List.countP_le_length _).trans_lt enough) (found t isTarget)
            ⟨t, isTarget, .refl⟩ (fun _ h => absurd h (List.not_mem_nil _)) listed
        refine ⟨g', call, ⟨printed', listed'⟩, fun t' mem => ?_⟩
        rcases List.mem_append.1 mem with old | new
        · exact grown (doneSeen t' old)
        · exact List.mem_singleton.1 new ▸ seen')
      [] ⟨[], []⟩ ⟨⟨[], Listed.init _ _ _⟩, by simp⟩
  exact ⟨g, printed, run, listed, fun t mem => targetsSeen t (by simpa using mem)⟩

/-- A generator that reads its own output back: `gen` writes `b` from `src` and `b`, and `cp`
copies `b` to `a`. -/
def loopGraph : State :=
  ⟨[⟨str "gen", str "gen", [str "src", str "b"], [str "b"]⟩,
    ⟨str "cp", str "cp b a", [str "b"], [str "a"]⟩]⟩

/-- On every graph, cycles included, with `TriggerInputs` any selection of an edge's inputs and
more fuel than the graph lists nodes, `siso query digraph` on targets that are nodes prints
without error one line for each node of `printed`: every node below a target, each once, and
each with the inputs its in-edge selects.  An input a line lists has its own line before it,
unless the line's node lies below that input, on a cycle through it. -/
theorem digraph_lists_each_node_once {st : State} {triggerInputs : Edge → List (List UInt8)}
    (triggerSubset : ∀ e ∈ st.edges, ∀ i ∈ triggerInputs e, i ∈ e.inputs) (orderOnly : Bool)
    {targets : List (List UInt8)} (found : ∀ t ∈ targets, st.lookupNodeByPath t = true)
    {fuel : Nat} (enough : st.nodes.length < fuel) :
    ∃ printed : List (List UInt8),
      digraphRun fuel st triggerInputs orderOnly targets =
        some (.ok (printed.map (digraphLine st (edgeInputs triggerInputs orderOnly)))) ∧
      printed.Nodup ∧
      (∀ p, p ∈ printed ↔ ∃ t ∈ targets, Under st (edgeInputs triggerInputs orderOnly) t p) ∧
      ∀ k (hk : k < printed.length), ∀ e, st.inEdge printed[k] = some e →
        ∀ i ∈ edgeInputs triggerInputs orderOnly e,
          i ∈ printed.take k ∨ Under st (edgeInputs triggerInputs orderOnly) i printed[k] := by
  obtain ⟨g, printed, run, listed, targetsSeen⟩ :=
    forEachTarget_listed (edgeInputs_subset triggerSubset orderOnly) found enough
  refine ⟨printed, by simp [digraphRun, run, listed.out_eq, Except.map], listed.nodup,
    fun p => ⟨listed.below p, fun ⟨t, isTarget, under⟩ => ?_⟩, listed.ordered⟩
  rcases listed.seen p (listed.seen_of_under (targetsSeen t isTarget) under) with
    onStack | ⟨done, -⟩
  · cases onStack
  · exact done

/-- `siso query digraph a` lists `b` among its own inputs, on the line that comes before
`a`'s. -/
example : digraphRun 6 loopGraph (fun _ => []) true [str "a"] =
    some (.ok [str "src\n", str "b src b\n", str "a b\n"]) := by rfl

theorem digraph_lists_each_node_once_loop :
    ((∀ e ∈ loopGraph.edges, ∀ i ∈ ([] : List (List UInt8)), i ∈ e.inputs) ∧
      (∀ t ∈ [str "a"], loopGraph.lookupNodeByPath t = true) ∧ loopGraph.nodes.length < 6) ∧
    ∃ printed : List (List UInt8),
      digraphRun 6 loopGraph (fun _ => []) true [str "a"] =
        some (.ok (printed.map (digraphLine loopGraph (edgeInputs (fun _ => []) true)))) ∧
      printed.Nodup ∧
      (∀ p, p ∈ printed ↔
        ∃ t ∈ [str "a"], Under loopGraph (edgeInputs (fun _ => []) true) t p) ∧
      ∀ k (hk : k < printed.length), ∀ e, loopGraph.inEdge printed[k] = some e →
        ∀ i ∈ edgeInputs (fun _ => []) true e,
          i ∈ printed.take k ∨ Under loopGraph (edgeInputs (fun _ => []) true) i printed[k] :=
  ⟨⟨fun _ _ _ h => absurd h (List.not_mem_nil _), by decide, by decide⟩,
    digraph_lists_each_node_once (fun _ _ _ h => absurd h (List.not_mem_nil _)) true
      (by decide) (by decide)⟩

end Siso.Query
