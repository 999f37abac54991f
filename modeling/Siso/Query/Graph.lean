import Mathlib.Data.List.Basic

/-!
# The build graph the query subcommands read

`siso query` loads the manifest into a `ninjautil.State` and reads from it the edge that
produces a node (`InEdge`), an edge's rule name, `command` binding and inputs, the root nodes,
and the node of a path.  `ninjautil` is not among the sources modelled here, so `State` is
taken as Ninja defines it: its edges in manifest order, each node named by its path (the state
holds one node per path), `InEdge` the edge that lists a node among its outputs,
`LookupNodeByPath` a path that some edge reads or writes, and `RootNodes` the outputs that no
edge reads.

The traversals recurse with explicit fuel, which bounds how deeply their calls nest.  A run
that returns with some fuel returns the same with more (`foldlM_some_of_some` is the step for a
loop over inputs), so its result is the result of the code.
-/

namespace Siso.Query

/-- A build edge as the queries read it: its rule's name, its `command` binding, and its inputs
and outputs, as paths. -/
structure Edge where
  rule : List UInt8
  command : List UInt8
  inputs : List (List UInt8)
  outputs : List (List UInt8)
  deriving DecidableEq, Repr

/-- A loaded `ninjautil.State`: its edges, in manifest order. -/
structure State where
  edges : List Edge
  deriving DecidableEq, Repr

/-- `InEdge()` of the node of `path`: the edge that lists it among its outputs. -/
def State.inEdge (st : State) (path : List UInt8) : Option Edge :=
  st.edges.find? fun e => path ∈ e.outputs

/-- Whether `LookupNodeByPath(path)` finds a node: some edge reads or writes `path`. -/
def State.lookupNodeByPath (st : State) (path : List UInt8) : Bool :=
  st.edges.any fun e => path ∈ e.inputs ∨ path ∈ e.outputs

/-- `RootNodes()`: the outputs of the edges, in manifest order, that no edge reads. -/
def State.rootNodes (st : State) : List (List UInt8) :=
  (st.edges.flatMap (·.outputs)).filter fun o => !st.edges.any fun e => o ∈ e.inputs

/-- The in-edge of a node is an edge of the state that lists it among its outputs. -/
theorem State.inEdge_mem {st : State} {path : List UInt8} {edge : Edge}
    (h : st.inEdge path = some edge) : edge ∈ st.edges ∧ path ∈ edge.outputs :=
  ⟨List.mem_of_find?_eq_some h, by simpa using List.find?_some h⟩

/-- The inputs of an edge of the state are nodes of it. -/
theorem State.lookupNodeByPath_input {st : State} {edge : Edge} (mem : edge ∈ st.edges)
    {input : List UInt8} (isInput : input ∈ edge.inputs) : st.lookupNodeByPath input = true :=
  List.any_eq_true.2 ⟨edge, mem, by simp [isInput]⟩

/-- `node` lies `n` input edges below `root`: a path `root`, ..., `node` in which each node is an
input of the in-edge of the one before. -/
inductive Reaches (st : State) (root : List UInt8) : List UInt8 → Nat → Prop
  | refl : Reaches st root root 0
  | tail {node input : List UInt8} {n : Nat} {edge : Edge} (above : Reaches st root node n)
      (inEdge : st.inEdge node = some edge) (mem : input ∈ edge.inputs) :
      Reaches st root input (n + 1)

/-- A loop whose body returns, keeping `P`, on every element and from every state with `P`,
returns and keeps `P`. -/
theorem foldlM_exists {α β : Type} {f : β → α → Option β} {P : β → Prop} (l : List α)
    (body : ∀ a ∈ l, ∀ b, P b → ∃ b', f b a = some b' ∧ P b') :
    ∀ b, P b → ∃ c, l.foldlM f b = some c ∧ P c := by
  induction l with
  | nil => exact fun b hb => ⟨b, rfl, hb⟩
  | cons a l ih =>
    intro b hb
    obtain ⟨b', first, hb'⟩ := body a (List.mem_cons_self a l) b hb
    obtain ⟨c, rest, hc⟩ := ih (fun a' mem => body a' (List.mem_cons_of_mem a mem)) b' hb'
    exact ⟨c, by simpa only [List.foldlM_cons, first] using rest, hc⟩

/-- A loop whose body returns with fuel `f` returns the same when the body is given more fuel,
`f'`. -/
theorem foldlM_some_of_some {α β : Type} {f f' : β → α → Option β}
    (more : ∀ b a c, f b a = some c → f' b a = some c) :
    ∀ (l : List α) (b c : β), l.foldlM f b = some c → l.foldlM f' b = some c
  | [], _, _, h => h
  | a :: l, b, c, h => by
    simp only [List.foldlM_cons, Option.bind_eq_bind, Option.bind_eq_some] at h ⊢
    obtain ⟨b', first, rest⟩ := h
    exact ⟨b', more _ _ _ first, foldlM_some_of_some more l b' c rest⟩

end Siso.Query
