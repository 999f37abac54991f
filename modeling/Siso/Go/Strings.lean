import Mathlib.Data.List.Infix

/-!
# Go strings

A Go `string` is a sequence of bytes; the model is the list of those bytes, and a string
literal of the source is its UTF-8 encoding.  This file models the functions of the `strings`
package that the modelled code calls.
-/

namespace Siso.Go

/-- The bytes of a string literal. -/
def str (s : String) : List UInt8 := s.data.flatMap String.utf8EncodeChar

/-- `'/'`. -/
def slash : UInt8 := 47

/-- `'.'`. -/
def dot : UInt8 := 46

/-- `strings.HasPrefix(s, prefix)`. -/
def hasPrefix (s pre : List UInt8) : Bool := pre.isPrefixOf s

/-- `strings.HasSuffix(s, suffix)`. -/
def hasSuffix (s suf : List UInt8) : Bool := suf.isSuffixOf s

/-- `strings.TrimPrefix(s, prefix)`. -/
def trimPrefix (s pre : List UInt8) : List UInt8 :=
  if hasPrefix s pre then s.drop pre.length else s

/-- `strings.TrimSuffix(s, suffix)`. -/
def trimSuffix (s suf : List UInt8) : List UInt8 :=
  if hasSuffix s suf then s.take (s.length - suf.length) else s

/-- `strings.ReplaceAll(s, old, new)` for one-byte `old` and `new`. -/
def replaceAll (s : List UInt8) (old new : UInt8) : List UInt8 :=
  s.map fun c => if c = old then new else c

/-- `strings.Cut(s, sep)` for a one-byte separator: the text before and after its first
occurrence, and whether it occurs. -/
def cut (s : List UInt8) (sep : UInt8) : List UInt8 × List UInt8 × Bool :=
  match s with
  | [] => ([], [], false)
  | c :: cs =>
    if c = sep then ([], cs, true)
    else
      let r := cut cs sep
      (c :: r.1, r.2.1, r.2.2)

/-- `strings.Join(elems, sep)` for a one-byte separator. -/
def joinWith (elems : List (List UInt8)) (sep : UInt8) : List UInt8 := [sep].intercalate elems

/-- `strings.Split(s, sep)` for a one-byte separator. -/
def split (s : List UInt8) (sep : UInt8) : List (List UInt8) := s.splitOn sep

theorem hasPrefix_iff {s pre : List UInt8} : hasPrefix s pre = true ↔ pre <+: s := by
  simp [hasPrefix]

end Siso.Go
