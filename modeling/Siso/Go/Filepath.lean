import Mathlib.Data.List.Basic
import Siso.Go.Strings

/-!
# `path/filepath` on Unix

The functions of `path/filepath` the modelled code calls, on Unix, where the separator is
`/` and there are no volume names.  `Clean` is modelled by its effect on the path's elements
(the pieces between separators), as its documentation states it: empty and `.` elements go,
a `..` takes the element before it with it, a `..` at the start of a rooted path goes, and the
empty result is `.`.  `Rel` is modelled the same way: it strips the common leading elements of
the two cleaned paths and climbs out of what is left of the base.
-/

namespace Siso.Filepath

open Go

/-- `filepath.IsAbs` on Unix: the path starts with a separator. -/
def isAbs (p : List UInt8) : Bool := p.head? = some slash

/-- The elements of a path: the pieces between its separators, empty ones included. -/
def elems (p : List UInt8) : List (List UInt8) := p.splitOn slash

/-- One element of `Clean`'s scan; the elements kept so far are in reverse order. -/
def cleanStep (rooted : Bool) (acc : List (List UInt8)) (e : List UInt8) : List (List UInt8) :=
  if e = [] ∨ e = [dot] then acc
  else if e = [dot, dot] then
    match acc with
    | top :: rest => if top = [dot, dot] then e :: acc else rest
    | [] => if rooted then [] else [e]
  else e :: acc

/-- The elements `Clean` keeps, in order. -/
def cleanElems (rooted : Bool) (es : List (List UInt8)) : List (List UInt8) :=
  (es.foldl (cleanStep rooted) []).reverse

/-- The path with a root flag and the given elements. -/
def render (rooted : Bool) (es : List (List UInt8)) : List UInt8 :=
  if rooted then slash :: joinWith es slash
  else if es = [] then [dot] else joinWith es slash

/-- `filepath.Clean`. -/
def clean (p : List UInt8) : List UInt8 := render (isAbs p) (cleanElems (isAbs p) (elems p))

/-- `filepath.Join(a, b)`: the non-empty arguments joined by a separator, cleaned. -/
def join (a b : List UInt8) : List UInt8 :=
  if a = [] then (if b = [] then [] else clean b) else clean (a ++ slash :: b)

/-- `filepath.Dir`: the path up to its last separator, cleaned. -/
def dir (p : List UInt8) : List UInt8 := clean (p.reverse.dropWhile (· ≠ slash)).reverse

/-- `filepath.Base`: the last element after trailing separators are dropped; `.` for the
empty path and `/` for a path of separators only. -/
def base (p : List UInt8) : List UInt8 :=
  if p = [] then [dot]
  else
    let b := ((p.reverse.dropWhile (· = slash)).takeWhile (· ≠ slash)).reverse
    if b = [] then [slash] else b

/-- The scan of `filepath.Ext` from the end of the path, with the bytes seen so far. -/
def extScan : List UInt8 → List UInt8 → List UInt8
  | _, [] => []
  | seen, c :: cs =>
    if c = slash then [] else if c = dot then dot :: seen else extScan (c :: seen) cs

/-- `filepath.Ext`: the last element from its last `.` on, or empty. -/
def ext (p : List UInt8) : List UInt8 := extScan [] p.reverse

/-- `filepath.IsLocal` on Unix: not absolute, not empty, and not climbing out of its
directory once cleaned (cleaning only when an element is `.` or `..`). -/
def isLocal (p : List UInt8) : Bool :=
  if isAbs p ∨ p = [] then false
  else
    let q := if (elems p).any (fun e => e = [dot] ∨ e = [dot, dot]) then clean p else p
    !(q = [dot, dot] ∨ hasPrefix q [dot, dot, slash])

/-- The root flag and the kept elements of a path, as `Clean` computes them. -/
def parts (p : List UInt8) : Bool × List (List UInt8) := (isAbs p, cleanElems (isAbs p) (elems p))

/-- Drop the common leading elements of two element lists. -/
def dropCommon : List (List UInt8) → List (List UInt8) → List (List UInt8) × List (List UInt8)
  | b :: bs, t :: ts => if b = t then dropCommon bs ts else (b :: bs, t :: ts)
  | bs, ts => (bs, ts)

/-- `filepath.Rel(basepath, targpath)`; `none` is its error. -/
def rel (basepath targpath : List UInt8) : Option (List UInt8) :=
  if clean targpath = clean basepath then some [dot]
  else if isAbs basepath ≠ isAbs targpath then none
  else
    let rest := dropCommon (parts basepath).2 (parts targpath).2
    if rest.1.head? = some [dot, dot] then none
    else some (joinWith (rest.1.map (fun _ => [dot, dot]) ++ rest.2) slash)

end Siso.Filepath
