import Mathlib.Data.List.Basic
import Siso.Go.Strings

/-!
# The edge hash of a step manifest

`calculateEdgeHash` feeds SHA-256 each input path followed by the unit separator `0x1f`, one more
separator, and each output path followed by the separator.  SHA-256 is a parameter; what is
proved is about the bytes it is fed.  Split at the separators, those bytes give back the two
lists as long as no path is empty or holds the separator, so two edges whose inputs or whose
outputs differ feed SHA-256 different bytes.
-/

namespace Siso.Build

open Go

/-- `unitSeparator`. -/
def unitSeparator : UInt8 := 0x1f

/-- The bytes `calculateEdgeHash` writes for a list of paths: each followed by the separator. -/
def writePaths (paths : List (List UInt8)) : List UInt8 :=
  paths.flatMap (· ++ [unitSeparator])

/-- The bytes `calculateEdgeHash(inputs, outputs)` writes to the hash. -/
def edgeHashPreimage (inputs outputs : List (List UInt8)) : List UInt8 :=
  writePaths inputs ++ unitSeparator :: writePaths outputs

/-- `calculateEdgeHash(inputs, outputs)`, with `sha256` the digest of `crypto/sha256`. -/
def calculateEdgeHash (sha256 : List UInt8 → List UInt8) (inputs outputs : List (List UInt8)) :
    List UInt8 :=
  sha256 (edgeHashPreimage inputs outputs)

/-- A path the encoding can carry: not empty, and without the separator. -/
def Separable (path : List UInt8) : Prop := path ≠ [] ∧ unitSeparator ∉ path

instance : DecidablePred Separable := fun _ => inferInstanceAs (Decidable (_ ∧ _))

/-- Read the two lists back: the pieces between separators up to the first empty one are the
inputs, the pieces after it but the last are the outputs. -/
def decodeEdge (bytes : List UInt8) : List (List UInt8) × List (List UInt8) :=
  let pieces := bytes.splitOn unitSeparator
  let inputs := pieces.takeWhile (· ≠ [])
  (inputs, (pieces.drop (inputs.length + 1)).dropLast)

/-- Splitting what `writePaths` wrote gives back the paths, then whatever follows. -/
theorem splitOn_writePaths {paths : List (List UInt8)}
    (noSep : ∀ p ∈ paths, unitSeparator ∉ p)
    (rest : List UInt8) :
    (writePaths paths ++ rest).splitOn unitSeparator = paths ++ rest.splitOn unitSeparator := by
  induction paths with
  | nil => rfl
  | cons p ps ih =>
    have shape : writePaths (p :: ps) ++ rest = p ++ unitSeparator :: (writePaths ps ++ rest) := by
      simp [writePaths]
    have first : (p ++ unitSeparator :: (writePaths ps ++ rest)).splitOn unitSeparator =
        p :: (writePaths ps ++ rest).splitOn unitSeparator :=
      List.splitOnP_first (· == unitSeparator) p
        (fun x hx isSep => noSep p (List.mem_cons_self p ps)
          ((by simpa using isSep : x = unitSeparator) ▸ hx)) unitSeparator (by simp) _
    rw [shape, first, ih (fun q hq => noSep q (List.mem_cons_of_mem p hq)), List.cons_append]

/-- The pieces of the bytes fed to SHA-256: the inputs, an empty piece, the outputs and a last
empty piece. -/
theorem splitOn_edgeHashPreimage {inputs outputs : List (List UInt8)}
    (noSepIn : ∀ p ∈ inputs, unitSeparator ∉ p)
    (noSepOut : ∀ p ∈ outputs, unitSeparator ∉ p) :
    (edgeHashPreimage inputs outputs).splitOn unitSeparator =
      inputs ++ [] :: (outputs ++ [[]]) := by
  have middle : (unitSeparator :: writePaths outputs).splitOn unitSeparator =
      [] :: (writePaths outputs).splitOn unitSeparator :=
    List.splitOnP_first _ [] (by simp) unitSeparator (by simp) _
  have tail := splitOn_writePaths noSepOut []
  rw [List.append_nil, List.splitOn_nil] at tail
  rw [edgeHashPreimage, splitOn_writePaths noSepIn, middle, tail]

/-- Decoding the bytes fed to SHA-256 gives back the inputs and the outputs. -/
theorem decodeEdge_edgeHashPreimage {inputs outputs : List (List UInt8)}
    (valid : ∀ p ∈ inputs ++ outputs, Separable p) :
    decodeEdge (edgeHashPreimage inputs outputs) = (inputs, outputs) := by
  have noSepIn : ∀ p ∈ inputs, unitSeparator ∉ p := fun p hp => (valid p (by simp [hp])).2
  have noSepOut : ∀ p ∈ outputs, unitSeparator ∉ p := fun p hp => (valid p (by simp [hp])).2
  have nonEmpty : ∀ p ∈ inputs, p ≠ [] := fun p hp => (valid p (by simp [hp])).1
  have taken : (inputs ++ [] :: (outputs ++ [[]])).takeWhile (· ≠ []) = inputs := by
    rw [List.takeWhile_append_of_pos (by simpa using nonEmpty)]
    simp
  simp only [decodeEdge, splitOn_edgeHashPreimage noSepIn noSepOut, taken]
  simp [List.drop_append_eq_append_drop]

/-- The encoding is injective on paths that are not empty and hold no separator. -/
theorem edgeHashPreimage_injective {inputs outputs inputs' outputs' : List (List UInt8)}
    (valid : ∀ p ∈ inputs ++ outputs ++ inputs' ++ outputs', Separable p)
    (same : edgeHashPreimage inputs outputs = edgeHashPreimage inputs' outputs') :
    inputs = inputs' ∧ outputs = outputs' := by
  have decoded := congrArg decodeEdge same
  rw [decodeEdge_edgeHashPreimage fun p hp => valid p (by simp at hp ⊢; tauto),
    decodeEdge_edgeHashPreimage fun p hp => valid p (by simp at hp ⊢; tauto)] at decoded
  exact Prod.mk.inj decoded

theorem edgeHashPreimage_injective_compile :
    ((∀ p ∈ [str "a.cc"] ++ [str "a.o"] ++ [str "a.cc"] ++ [str "a.o"], Separable p) ∧
        edgeHashPreimage [str "a.cc"] [str "a.o"] = edgeHashPreimage [str "a.cc"] [str "a.o"]) ∧
      ([str "a.cc"] = [str "a.cc"] ∧ [str "a.o"] = [str "a.o"]) :=
  ⟨⟨by decide, rfl⟩, edgeHashPreimage_injective (by decide) rfl⟩

/-- Without the condition an empty path collides: one empty input and one empty output feed
SHA-256 the same two separators. -/
theorem edgeHashPreimage_empty_input_output :
    edgeHashPreimage [[]] [] = edgeHashPreimage [] [[]] := rfl

end Siso.Build
