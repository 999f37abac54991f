import Mathlib.Data.List.Infix
import Siso.Go.Filepath

/-!
# The element algebra of `Clean`

`Clean` scans a path's elements with a stack: a plain element is pushed, a `..` pops the
element on top unless that is a `..` itself, and under the root a `..` with nothing to pop
goes.  What it returns is *normal*: some `..` (none under the root), then plain elements.

The central fact is `foldl_cleanElems`: folding the elements `Clean` keeps of a relative path
into any stack has the effect of folding the path's own elements.  From it, `Join`, `Dir` and
`Rel` are described by the elements of the paths they are given, and a cleaned path is
determined by its root flag and elements (`clean_eq_clean_iff`).
-/

namespace Siso.Filepath

open Go

/-- An element that `Clean` keeps as it is: a non-empty piece between separators other than
`.` and `..`. -/
def Plain (e : List UInt8) : Prop := e ≠ [] ∧ e ≠ [dot] ∧ e ≠ [dot, dot] ∧ slash ∉ e

/-- Elements as `Clean` leaves them: `k` elements `..`, none under the root, then plain ones. -/
def Normal (rooted : Bool) (es : List (List UInt8)) : Prop :=
  ∃ k xs, es = List.replicate k [dot, dot] ++ xs ∧ (∀ x ∈ xs, Plain x) ∧
    (rooted = true → k = 0)

/-- `path` is `root` or lies under it: the cleaned root's elements lead the cleaned path's. -/
def Within (root path : List UInt8) : Prop := (parts root).2 <+: (parts path).2

instance (root path : List UInt8) : Decidable (Within root path) :=
  inferInstanceAs (Decidable (_ <+: _))

section Step

variable {rooted : Bool} {acc : List (List UInt8)} {e : List UInt8}

@[simp]
theorem cleanStep_nil : cleanStep rooted acc [] = acc := by simp [cleanStep]

@[simp]
theorem cleanStep_dot : cleanStep rooted acc [dot] = acc := by simp [cleanStep]

theorem cleanStep_plain (h : Plain e) : cleanStep rooted acc e = e :: acc := by
  simp [cleanStep, h.1, h.2.1, h.2.2.1]

theorem cleanStep_dotDot_plain (h : Plain e) : cleanStep rooted (e :: acc) [dot, dot] = acc := by
  simp [cleanStep, h.2.2.1]

/-- Outside the root, a `..` on a stack of `..` only is kept. -/
theorem cleanStep_dotDot_replicate (k : Nat) :
    cleanStep false (List.replicate k [dot, dot]) [dot, dot] =
      List.replicate (k + 1) [dot, dot] := by
  cases k <;> simp [cleanStep, List.replicate_succ]

theorem foldl_cleanStep_plain {xs : List (List UInt8)} (h : ∀ x ∈ xs, Plain x)
    (acc : List (List UInt8)) : xs.foldl (cleanStep rooted) acc = xs.reverse ++ acc := by
  induction xs generalizing acc with
  | nil => rfl
  | cons x xs ih =>
    rw [List.foldl_cons, cleanStep_plain (h x (.head xs)), ih fun y hy => h y (.tail x hy)]
    simp

/-- A `..` for each plain element on top of the stack takes them all off again. -/
theorem foldl_cleanStep_climb {xs : List (List UInt8)} (h : ∀ x ∈ xs, Plain x)
    (stack : List (List UInt8)) :
    (List.replicate xs.length [dot, dot]).foldl (cleanStep rooted) (xs.reverse ++ stack) =
      stack := by
  induction xs generalizing stack with
  | nil => rfl
  | cons x xs ih =>
    rw [List.length_cons, List.replicate_succ', List.foldl_append, List.reverse_cons,
      List.append_assoc, List.singleton_append, ih (fun y hy => h y (.tail x hy)), List.foldl_cons,
      List.foldl_nil, cleanStep_dotDot_plain (h x (.head xs))]

end Step

section Normal

variable {rooted : Bool} {n : List (List UInt8)}

theorem Normal.ne_nil_not_mem (hn : Normal rooted n) : ∀ x ∈ n, x ≠ [] ∧ slash ∉ x := by
  obtain ⟨k, xs, rfl, hxs, -⟩ := hn
  intro x hx
  rcases List.mem_append.1 hx with h | h
  · rw [List.eq_of_mem_replicate h]; decide
  · exact ⟨(hxs x h).1, (hxs x h).2.2.2⟩

/-- Normal elements that do not start with `..` are plain. -/
theorem Normal.plain (hn : Normal rooted n) (up : n.head? ≠ some [dot, dot]) :
    ∀ x ∈ n, Plain x := by
  obtain ⟨k, xs, rfl, hxs, -⟩ := hn
  cases k with
  | zero => simpa using hxs
  | succ k => simp [List.replicate_succ] at up

theorem normal_of_plain (h : ∀ x ∈ n, Plain x) : Normal rooted n :=
  ⟨0, n, rfl, h, fun _ => rfl⟩

/-- One step of `Clean` keeps its stack normal. -/
theorem Normal.cleanStep {e : List UInt8} (hn : Normal rooted n) (he : slash ∉ e) :
    Normal rooted (cleanStep rooted n.reverse e).reverse := by
  obtain ⟨k, xs, rfl, hxs, hroot⟩ := hn
  by_cases skip : e = [] ∨ e = [dot]
  · rcases skip with rfl | rfl <;> simpa using ⟨k, xs, rfl, hxs, hroot⟩
  by_cases up : e = [dot, dot]
  · subst up
    rcases xs.eq_nil_or_concat with rfl | ⟨ys, y, rfl⟩
    · cases rooted
      · exact ⟨k + 1, [], by simp [cleanStep_dotDot_replicate], by simp, by simp⟩
      · obtain rfl := hroot rfl
        exact ⟨0, [], by simp [cleanStep], by simp, fun _ => rfl⟩
    · refine ⟨k, ys, ?_, fun x hx => hxs x (by simp [hx]), hroot⟩
      simp [cleanStep_dotDot_plain (hxs y (by simp))]
  · have plain : Plain e := ⟨fun h => skip (.inl h), fun h => skip (.inr h), up, he⟩
    refine ⟨k, xs ++ [e], by simp [cleanStep_plain plain], fun x hx => ?_, hroot⟩
    rcases List.mem_append.1 hx with h | h
    · exact hxs x h
    · exact (List.mem_singleton.1 h) ▸ plain

/-- The elements `Clean` keeps are normal. -/
theorem normal_cleanElems {es : List (List UInt8)} (h : ∀ e ∈ es, slash ∉ e) :
    Normal rooted (cleanElems rooted es) := by
  suffices ∀ n, Normal rooted n → Normal rooted (es.foldl (cleanStep rooted) n.reverse).reverse
    from this [] (normal_of_plain (by simp))
  induction es with
  | nil => intro n hn; simpa using hn
  | cons e es ih =>
    intro n hn
    simpa using ih (fun x hx => h x (.tail e hx)) _ (hn.cleanStep (h e (.head es)))

/-- `Clean` keeps normal elements as they are. -/
theorem cleanElems_normal (hn : Normal rooted n) : cleanElems rooted n = n := by
  obtain ⟨k, xs, rfl, hxs, hroot⟩ := hn
  have climb : (List.replicate k [dot, dot]).foldl (cleanStep rooted) [] =
      List.replicate k [dot, dot] := by
    cases rooted
    · clear hroot
      induction k with
        | zero => rfl
        | succ k ih =>
          rw [List.replicate_succ', List.foldl_append, ih, List.foldl_cons, List.foldl_nil,
            cleanStep_dotDot_replicate, List.replicate_succ']
    · rw [hroot rfl]; rfl
  rw [cleanElems, List.foldl_append, climb, foldl_cleanStep_plain hxs]
  simp

/-- A step of `Clean` outside the root, after normal elements, acts on any stack as the step
itself does. -/
theorem foldl_cleanStep_normal {e : List UInt8} (hn : Normal false n) (he : slash ∉ e)
    (r : Bool) (stack : List (List UInt8)) :
    (cleanStep false n.reverse e).reverse.foldl (cleanStep r) stack =
      cleanStep r (n.foldl (cleanStep r) stack) e := by
  obtain ⟨k, xs, rfl, hxs, -⟩ := hn
  by_cases skip : e = [] ∨ e = [dot]
  · rcases skip with rfl | rfl <;> simp
  by_cases up : e = [dot, dot]
  · subst up
    rcases xs.eq_nil_or_concat with rfl | ⟨ys, y, rfl⟩
    · simp only [List.append_nil, List.reverse_replicate, cleanStep_dotDot_replicate]
      rw [List.replicate_succ', List.foldl_append]
      rfl
    · have hy := hxs y (by simp)
      simp [cleanStep_dotDot_plain hy, cleanStep_plain hy]
  · have plain : Plain e := ⟨fun h => skip (.inl h), fun h => skip (.inr h), up, he⟩
    simp [cleanStep_plain plain]

/-- Folding the elements `Clean` keeps of a relative path into any stack has the effect of
folding the path's own elements. -/
theorem foldl_cleanElems {es : List (List UInt8)} (h : ∀ e ∈ es, slash ∉ e) (r : Bool)
    (stack : List (List UInt8)) :
    (cleanElems false es).foldl (cleanStep r) stack = es.foldl (cleanStep r) stack := by
  induction es using List.reverseRecOn with
  | nil => rfl
  | append_singleton es e ih =>
    have h' : ∀ x ∈ es, slash ∉ x := fun x hx => h x (by simp [hx])
    calc (cleanElems false (es ++ [e])).foldl (cleanStep r) stack
        = (cleanStep false (cleanElems false es).reverse e).reverse.foldl (cleanStep r) stack := by
          simp [cleanElems]
      _ = cleanStep r ((cleanElems false es).foldl (cleanStep r) stack) e :=
          foldl_cleanStep_normal (normal_cleanElems h') (h e (by simp)) r stack
      _ = (es ++ [e]).foldl (cleanStep r) stack := by rw [ih h', List.foldl_append]; rfl

theorem cleanElems_append (es fs : List (List UInt8)) :
    cleanElems rooted (es ++ fs) =
      (fs.foldl (cleanStep rooted) (cleanElems rooted es).reverse).reverse := by
  simp [cleanElems, List.foldl_append]

end Normal

section Elems

/-- The elements of a path are the elements before a separator, then those after it. -/
theorem elems_append_slash (a b : List UInt8) : elems (a ++ slash :: b) = elems a ++ elems b := by
  induction a with
  | nil => simp [elems, List.splitOn]
  | cons c a ih =>
    simp only [elems, List.splitOn, List.cons_append, List.splitOnP_cons] at ih ⊢
    split
    · rw [ih]; rfl
    · rw [ih]
      obtain ⟨x, xs, hx⟩ := List.exists_cons_of_ne_nil (List.splitOnP_ne_nil (· == slash) a)
      rw [hx]; rfl

theorem elems_slash_cons (p : List UInt8) : elems (slash :: p) = [] :: elems p :=
  elems_append_slash [] p

theorem not_mem_of_mem_elems {p e : List UInt8} (h : e ∈ elems p) : slash ∉ e := by
  induction p generalizing e with
  | nil =>
    rw [elems, List.splitOn_nil, List.mem_singleton] at h
    simp [h]
  | cons c p ih =>
    simp only [elems, List.splitOn, List.splitOnP_cons] at h ih
    obtain ⟨x, xs, hx⟩ := List.exists_cons_of_ne_nil (List.splitOnP_ne_nil (· == slash) p)
    by_cases hc : c = slash
    · rw [if_pos (by simp [hc])] at h
      rcases List.mem_cons.1 h with rfl | h
      · simp
      · exact ih h
    · rw [if_neg (by simp [hc]), hx, List.modifyHead_cons] at h
      rcases List.mem_cons.1 h with rfl | h
      · exact fun hs => (List.mem_cons.1 hs).elim (fun e => hc e.symm) (ih (by simp [hx]))
      · exact ih (by simp [hx, h])

theorem elems_joinWith {es : List (List UInt8)} (h : ∀ e ∈ es, slash ∉ e) (ne : es ≠ []) :
    elems (joinWith es slash) = es :=
  List.splitOn_intercalate es slash h ne

/-- Rendering normal elements and scanning the result again meets the same elements, up to
empty and `.` ones. -/
theorem foldl_elems_render {rooted : Bool} {n : List (List UInt8)} (hn : Normal rooted n)
    (r : Bool) (stack : List (List UInt8)) :
    (elems (render rooted n)).foldl (cleanStep r) stack = n.foldl (cleanStep r) stack := by
  have parts := hn.ne_nil_not_mem
  by_cases ne : n = []
  · subst ne; cases rooted <;> rfl
  · cases rooted
    · rw [render, if_neg Bool.false_ne_true, if_neg ne,
        elems_joinWith (fun x hx => (parts x hx).2) ne]
    · rw [render, if_pos rfl, elems_slash_cons, elems_joinWith (fun x hx => (parts x hx).2) ne]
      simp

theorem isAbs_render {rooted : Bool} {n : List (List UInt8)} (hn : Normal rooted n) :
    isAbs (render rooted n) = rooted := by
  cases rooted
  · rcases n with _ | ⟨x, xs⟩
    · rfl
    · obtain ⟨ne, notMem⟩ := hn.ne_nil_not_mem x (.head xs)
      obtain ⟨c, cs, rfl⟩ := List.exists_cons_of_ne_nil ne
      cases xs <;>
        simp_all [render, isAbs, joinWith, List.intercalate, List.intersperse, eq_comm]
  · simp [render, isAbs]

theorem cleanElems_elems_render {rooted : Bool} {n : List (List UInt8)} (hn : Normal rooted n) :
    cleanElems rooted (elems (render rooted n)) = n := by
  unfold cleanElems
  rw [foldl_elems_render hn]
  exact cleanElems_normal hn

end Elems

section Clean

theorem normal_parts (p : List UInt8) : Normal (parts p).1 (parts p).2 :=
  normal_cleanElems fun _ => not_mem_of_mem_elems

theorem clean_eq_render (p : List UInt8) : clean p = render (parts p).1 (parts p).2 := rfl

@[simp]
theorem parts_clean (p : List UInt8) : parts (clean p) = parts p := by
  have hn := normal_parts p
  show (isAbs (clean p), cleanElems (isAbs (clean p)) (elems (clean p))) = parts p
  rw [clean_eq_render, isAbs_render hn, cleanElems_elems_render hn]

/-- A cleaned path is determined by its root flag and its elements. -/
theorem clean_eq_clean_iff {p q : List UInt8} : clean p = clean q ↔ parts p = parts q :=
  ⟨fun h => by rw [← parts_clean p, h, parts_clean],
    fun h => by rw [clean_eq_render, clean_eq_render q, h]⟩

@[simp]
theorem clean_clean (p : List UInt8) : clean (clean p) = clean p :=
  clean_eq_clean_iff.2 (parts_clean p)

theorem isAbs_clean (p : List UInt8) : isAbs (clean p) = isAbs p :=
  congrArg Prod.fst (parts_clean p)

theorem ne_nil_of_isAbs {p : List UInt8} (h : isAbs p) : p ≠ [] := by
  rintro rfl; simp [isAbs] at h

theorem isAbs_append {a : List UInt8} (ha : a ≠ []) (b : List UInt8) :
    isAbs (a ++ b) = isAbs a := by
  simp [isAbs, List.head?_append_of_ne_nil _ ha]

theorem join_of_ne_nil {a : List UInt8} (ha : a ≠ []) (b : List UInt8) :
    join a b = clean (a ++ slash :: b) := by
  rw [join, if_neg ha]

/-- `Join` scans the second path's elements from where the first one's leave the stack. -/
theorem parts_join {a : List UInt8} (ha : a ≠ []) (b : List UInt8) :
    parts (join a b) =
      (isAbs a, ((elems b).foldl (cleanStep (isAbs a)) (parts a).2.reverse).reverse) := by
  rw [join_of_ne_nil ha, parts_clean, parts, isAbs_append ha, elems_append_slash,
    cleanElems_append]
  rfl

theorem clean_join {a : List UInt8} (ha : a ≠ []) (b : List UInt8) :
    clean (join a b) = join a b := by
  rw [join_of_ne_nil ha, clean_clean]

theorem render_ne_nil (rooted : Bool) (n : List (List UInt8)) (hn : Normal rooted n) :
    render rooted n ≠ [] := by
  cases rooted
  · rcases n with _ | ⟨x, xs⟩
    · simp [render]
    · intro h
      have := hn.ne_nil_not_mem x (.head xs)
      cases xs <;> simp_all [render, joinWith, List.intercalate, List.intersperse]
  · simp [render]

theorem clean_ne_nil (p : List UInt8) : clean p ≠ [] := render_ne_nil _ _ (normal_parts p)

/-- The last separator of a path that has one. -/
theorem exists_last_slash {p : List UInt8} (h : slash ∈ p) :
    ∃ q x, p = q ++ slash :: x ∧ slash ∉ x := by
  induction p using List.reverseRecOn with
  | nil => simp at h
  | append_singleton p c ih =>
    by_cases hc : c = slash
    · exact ⟨p, [], by simp [hc], by simp⟩
    · obtain ⟨q, x, rfl, hx⟩ := ih (by simpa [Ne.symm hc] using h)
      exact ⟨q, x ++ [c], by simp, by simp [hx, Ne.symm hc]⟩

/-- `Dir` keeps every element but the last. -/
theorem parts_dir (p : List UInt8) :
    parts (dir p) = (isAbs p, cleanElems (isAbs p) (elems p).dropLast) := by
  by_cases h : slash ∈ p
  · obtain ⟨q, x, rfl, hx⟩ := exists_last_slash h
    have cut : (q ++ slash :: x).reverse.dropWhile (· ≠ slash) = slash :: q.reverse := by
      rw [List.reverse_append, List.reverse_cons, List.append_assoc,
        List.dropWhile_append_of_pos (by simpa using List.forall_mem_ne'.2 hx)]
      simp
    have last : elems x = [x] :=
      List.splitOnP_eq_single _ _ (by simpa using List.forall_mem_ne'.2 hx)
    rw [dir, cut, List.reverse_cons, List.reverse_reverse, parts_clean, parts,
      elems_append_slash, elems_append_slash, last, List.dropLast_concat]
    have : isAbs (q ++ [slash]) = isAbs (q ++ slash :: x) := by
      by_cases hq : q = []
      · subst hq; rfl
      · rw [isAbs_append hq, isAbs_append hq]
    simp [this, cleanElems_append, elems]
  · have single : elems p = [p] :=
      List.splitOnP_eq_single _ _ (by simpa using List.forall_mem_ne'.2 h)
    have notAbs : isAbs p = false := by
      cases p with
      | nil => rfl
      | cons c p =>
        simp only [isAbs, List.head?_cons, Option.some.injEq, decide_eq_false_iff_not]
        rintro rfl
        exact h (.head p)
    rw [dir, List.dropWhile_eq_nil_iff.2 (by simpa using List.forall_mem_ne'.2 h),
      single, notAbs]
    rfl

end Clean

section Rel

theorem Normal.rooted_plain {n : List (List UInt8)} (hn : Normal true n) :
    ∀ x ∈ n, Plain x := by
  obtain ⟨k, xs, rfl, hxs, hroot⟩ := hn
  rw [hroot rfl]
  simpa using hxs

/-- The elements of an absolute path that `Clean` keeps are plain. -/
theorem plain_parts {p : List UInt8} (h : isAbs p) : ∀ x ∈ (parts p).2, Plain x := by
  have := normal_parts p
  rw [show (parts p).1 = true from h] at this
  exact this.rooted_plain

theorem clean_render {rooted : Bool} {n : List (List UInt8)} (hn : Normal rooted n) :
    clean (render rooted n) = render rooted n := by
  rw [clean_eq_render]
  show render (isAbs (render rooted n)) (cleanElems _ (elems (render rooted n))) = _
  rw [isAbs_render hn, cleanElems_elems_render hn]

/-- A path climbs out of its directory, `..` or `../` and more, when its first element is
`..`. -/
theorem climbs_iff (q : List UInt8) :
    (q = [dot, dot] ∨ hasPrefix q [dot, dot, slash] = true) ↔
      (elems q).head? = some [dot, dot] := by
  constructor
  · rintro (rfl | up)
    · rfl
    · obtain ⟨t, rfl⟩ := hasPrefix_iff.1 up
      rw [show [dot, dot, slash] ++ t = [dot, dot] ++ slash :: t from rfl, elems_append_slash]
      rfl
  · intro h
    rw [← List.intercalate_splitOn q slash]
    obtain ⟨rest, hq⟩ : ∃ rest, elems q = [dot, dot] :: rest := by
      cases hq : elems q <;> simp_all
    rw [show q.splitOn slash = elems q from rfl, hq]
    cases rest with
    | nil => exact .inl rfl
    | cons x xs =>
      exact .inr (hasPrefix_iff.2
        ⟨[slash].intercalate (x :: xs), by simp [List.intercalate, List.intersperse_cons_cons]⟩)

theorem isAbs_eq_false_of_isLocal {p : List UInt8} (h : isLocal p = true) : isAbs p = false := by
  by_contra abs
  simp [isLocal, abs] at h

/-- A cleaned relative path is local exactly when its elements do not start with `..`. -/
theorem isLocal_render {n : List (List UInt8)} (hn : Normal false n) :
    isLocal (render false n) = true ↔ n.head? ≠ some [dot, dot] := by
  have cleaned := clean_render hn
  have notAbs := isAbs_render hn
  have ne := render_ne_nil false n hn
  have first :
      (elems (render false n)).head? ≠ some [dot, dot] ↔ n.head? ≠ some [dot, dot] := by
    by_cases nil : n = []
    · subst nil; decide
    · rw [render, if_neg Bool.false_ne_true, if_neg nil,
        elems_joinWith (fun x hx => (hn.ne_nil_not_mem x hx).2) nil]
  rw [← first, ne_eq, ← climbs_iff]
  simp [isLocal, notAbs, ne, cleaned]

theorem dropCommon_append (c bs ts : List (List UInt8)) :
    dropCommon (c ++ bs) (c ++ ts) = dropCommon bs ts := by
  induction c with
  | nil => rfl
  | cons x c ih => simp [dropCommon, ih]

/-- `dropCommon` drops a common leading part of the two lists. -/
theorem dropCommon_spec : ∀ bs ts : List (List UInt8),
    ∃ c, bs = c ++ (dropCommon bs ts).1 ∧ ts = c ++ (dropCommon bs ts).2
  | b :: bs, t :: ts => by
    by_cases h : b = t
    · subst h
      obtain ⟨c, hb, ht⟩ := dropCommon_spec bs ts
      rw [dropCommon, if_pos rfl]
      exact ⟨b :: c, by rw [List.cons_append, ← hb], by rw [List.cons_append, ← ht]⟩
    · rw [dropCommon, if_neg h]
      exact ⟨[], rfl, rfl⟩
  | [], _ => ⟨[], rfl, rfl⟩
  | _ :: _, [] => ⟨[], rfl, rfl⟩

theorem join_eq_clean_iff {a : List UInt8} (ha : a ≠ []) (b t : List UInt8) :
    join a b = clean t ↔ parts (join a b) = parts t := by
  rw [← clean_eq_clean_iff, clean_join ha b]

/-- `Rel` between absolute paths: the path it gives joins back onto the base as the cleaned
target, and it is local exactly when the target is the base or lies under it. -/
theorem rel_abs {base targ : List UInt8} (hb : isAbs base) (ht : isAbs targ) :
    ∃ r, rel base targ = some r ∧ isAbs r = false ∧
      (isLocal r = true ↔ Within base targ) ∧
      join base r = clean targ := by
  have ne := ne_nil_of_isAbs hb
  have plainB := plain_parts hb
  have plainT := plain_parts ht
  obtain ⟨c, hB, hT⟩ := dropCommon_spec (parts base).2 (parts targ).2
  set bs := (dropCommon (parts base).2 (parts targ).2).1
  set ts := (dropCommon (parts base).2 (parts targ).2).2
  have within : Within base targ ↔ bs = [] := by
    refine ⟨fun ⟨u, hu⟩ => ?_, fun h => ⟨ts, by rw [hT, hB, h, List.append_nil]⟩⟩
    have := dropCommon_append (parts base).2 [] u
    rw [List.append_nil, hu] at this
    exact congrArg Prod.fst this
  rw [rel]
  dsimp only
  split_ifs with same diff up
  · refine ⟨_, rfl, rfl, ⟨fun _ => ?_, fun _ => rfl⟩, ?_⟩
    · show (parts base).2 <+: (parts targ).2
      rw [clean_eq_clean_iff.1 same]
    · rw [join_eq_clean_iff ne, parts_join ne, show elems [dot] = [[dot]] by decide,
        List.foldl_cons, List.foldl_nil, cleanStep_dot, List.reverse_reverse,
        clean_eq_clean_iff.1 same]
      rfl
  · exact absurd (hb.trans ht.symm) diff
  · change bs.head? = some [dot, dot] at up
    exact absurd rfl
      (plainB _ (by rw [hB]; exact List.mem_append_right c (List.mem_of_mem_head? up))).2.2.1
  · have plainBs : ∀ x ∈ bs, Plain x := fun x hx => plainB x (by rw [hB]; simp [hx])
    have plainTs : ∀ x ∈ ts, Plain x := fun x hx => plainT x (by rw [hT]; simp [hx])
    have climb : bs.map (fun _ => [dot, dot]) = List.replicate bs.length [dot, dot] :=
      List.map_const' _ _
    have normal : Normal false (bs.map (fun _ => [dot, dot]) ++ ts) :=
      ⟨bs.length, ts, by rw [climb], plainTs, by simp⟩
    have nonempty : bs.map (fun _ => [dot, dot]) ++ ts ≠ [] := by
      intro h
      simp only [List.append_eq_nil, List.map_eq_nil_iff] at h
      apply same
      rw [clean_eq_clean_iff]
      exact Prod.ext (ht.trans hb.symm) (by rw [hT, hB, h.1, h.2])
    have rendered : joinWith (bs.map (fun _ => [dot, dot]) ++ ts) slash =
        render false (bs.map (fun _ => [dot, dot]) ++ ts) := by
      rw [render, if_neg Bool.false_ne_true, if_neg nonempty]
    refine ⟨_, rfl, by rw [rendered, isAbs_render normal], ?_, ?_⟩
    · rw [rendered, isLocal_render normal, within]
      by_cases nil : bs = []
      · simpa [nil] using fun h => (plainTs _ (List.mem_of_mem_head? h)).2.2.1 rfl
      · obtain ⟨x, xs, hx⟩ := List.exists_cons_of_ne_nil nil
        simp [hx]
    · rw [rendered, join_eq_clean_iff ne, parts_join ne, foldl_elems_render normal,
        List.foldl_append, hb, hB, List.reverse_append, climb, foldl_cleanStep_climb plainBs,
        foldl_cleanStep_plain plainTs]
      exact Prod.ext (ht.symm) (by rw [hT]; simp)

end Rel

section Dir

theorem elems_render_true {n : List (List UInt8)} (hn : Normal true n) (ne : n ≠ []) :
    elems (render true n) = [] :: n := by
  rw [render, if_pos rfl, elems_slash_cons,
    elems_joinWith (fun x hx => (hn.ne_nil_not_mem x hx).2) ne]

/-- The directory of a cleaned path with plain elements keeps all of them but the last. -/
theorem parts_dir_render {rooted : Bool} {n : List (List UInt8)} (plain : ∀ x ∈ n, Plain x)
    (ne : n ≠ []) : parts (dir (render rooted n)) = (rooted, n.dropLast) := by
  have hn : Normal rooted n := normal_of_plain plain
  have last : cleanElems rooted n.dropLast = n.dropLast :=
    cleanElems_normal (normal_of_plain fun x hx => plain x (List.dropLast_subset n hx))
  rw [parts_dir, isAbs_render hn]
  cases rooted
  · rw [render, if_neg Bool.false_ne_true, if_neg ne,
      elems_joinWith (fun x hx => (hn.ne_nil_not_mem x hx).2) ne, last]
  · rw [elems_render_true hn ne, List.dropLast_cons_of_ne_nil ne, cleanElems,
      List.foldl_cons, cleanStep_nil]
    exact congrArg _ last

/-- Folding the elements of a cleaned relative path has the effect of folding the path's own. -/
theorem foldl_elems_clean {x : List UInt8} (hx : isAbs x = false) (r : Bool)
    (stack : List (List UInt8)) :
    (elems (clean x)).foldl (cleanStep r) stack = (elems x).foldl (cleanStep r) stack := by
  have hn := normal_parts x
  have kept : (parts x).2 = cleanElems false (elems x) := by
    show cleanElems (isAbs x) (elems x) = _
    rw [hx]
  rw [clean_eq_render, foldl_elems_render hn, kept]
  exact foldl_cleanElems (fun _ => not_mem_of_mem_elems) r stack

theorem parts_join_cleanElems {a : List UInt8} (ha : a ≠ []) (b : List UInt8) :
    parts (join a b) = (isAbs a, cleanElems (isAbs a) (elems a ++ elems b)) := by
  rw [join_of_ne_nil ha, parts_clean, parts, isAbs_append ha, elems_append_slash]

theorem isAbs_join {a : List UInt8} (ha : a ≠ []) (b : List UInt8) : isAbs (join a b) = isAbs a :=
  congrArg Prod.fst (parts_join_cleanElems ha b)

theorem isAbs_dir (p : List UInt8) : isAbs (dir p) = isAbs p := congrArg Prod.fst (parts_dir p)

theorem clean_dir (p : List UInt8) : clean (dir p) = dir p := clean_clean _

theorem dir_ne_nil (p : List UInt8) : dir p ≠ [] := clean_ne_nil _

/-- Joining plain elements onto a path appends them to its elements. -/
theorem parts_join_plain {a : List UInt8} (ha : a ≠ []) {n : List (List UInt8)}
    (plain : ∀ x ∈ n, Plain x) :
    parts (join a (render false n)) = (isAbs a, (parts a).2 ++ n) := by
  rw [parts_join ha, foldl_elems_render (normal_of_plain plain), foldl_cleanStep_plain plain]
  simp

/-- A clean local path is plain elements, rendered. -/
theorem plain_of_isLocal {p : List UInt8} (pLocal : isLocal p) (pClean : clean p = p) :
    ∃ n, p = render false n ∧ ∀ x ∈ n, Plain x := by
  have pRel := isAbs_eq_false_of_isLocal pLocal
  obtain ⟨n, hn⟩ : ∃ n, (parts p).2 = n := ⟨_, rfl⟩
  have rendered : p = render false n := by
    rw [← pClean, clean_eq_render, hn, show (parts p).1 = false from pRel]
  have normal : Normal false n := by
    have := normal_parts p
    rwa [show (parts p).1 = false from pRel, hn] at this
  exact ⟨n, rendered, normal.plain ((isLocal_render normal).1 (rendered ▸ pLocal))⟩

/-- A clean local path joined onto a path lies under it. -/
theorem within_join_local {a b : List UInt8} (ha : a ≠ []) (bLocal : isLocal b)
    (bClean : clean b = b) : Within a (join a b) := by
  obtain ⟨n, rfl, plain⟩ := plain_of_isLocal bLocal bClean
  show (parts a).2 <+: (parts (join a _)).2
  rw [parts_join_plain ha plain]
  exact List.prefix_append _ _

/-- `Join` is associative when the middle path is relative. -/
theorem join_join {a d : List UInt8} (ha : a ≠ []) (hd : d ≠ []) (dRel : isAbs d = false)
    (t : List UInt8) : join a (join d t) = join (join a d) t := by
  have had : join a d ≠ [] := by rw [join_of_ne_nil ha]; exact clean_ne_nil _
  rw [← clean_join ha, ← clean_join had, clean_eq_clean_iff, parts_join ha, parts_join had,
    parts_join ha, isAbs_join ha, join_of_ne_nil hd,
    foldl_elems_clean (by rw [isAbs_append hd, dRel]), elems_append_slash, List.foldl_append,
    List.reverse_reverse]

/-- The directory of a clean local path other than `.`, joined onto an absolute path, is the
directory of the joined path.  For `.` it is not: `Dir(Join(root, "."))` is the root's
parent, while `Join(root, Dir("."))` is the root. -/
theorem dir_join_local {a p : List UInt8} (aAbs : isAbs a) (pLocal : isLocal p)
    (pClean : clean p = p) (notDot : p ≠ [dot]) : dir (join a p) = join a (dir p) := by
  have ha := ne_nil_of_isAbs aAbs
  obtain ⟨n, rfl, plain⟩ := plain_of_isLocal pLocal pClean
  have ne : n ≠ [] := by rintro rfl; exact notDot rfl
  have init : ∀ x ∈ n.dropLast, Plain x := fun x hx => plain x (List.dropLast_subset _ hx)
  have plainAll : ∀ x ∈ (parts a).2 ++ n, Plain x := by
    simpa [or_imp, forall_and] using And.intro (plain_parts aAbs) plain
  have dirP : dir (render false n) = render false n.dropLast := by
    rw [← clean_dir, clean_eq_render, parts_dir_render plain ne]
  have linked : join a (render false n) = render (isAbs a) ((parts a).2 ++ n) := by
    rw [← clean_join ha, clean_eq_render, parts_join_plain ha plain]
  rw [← clean_dir (join a _), ← clean_join ha (dir _), clean_eq_clean_iff, dirP,
    parts_join_plain ha init, linked, parts_dir_render plainAll (by simp [ne]),
    List.dropLast_append_of_ne_nil _ ne]

end Dir

end Siso.Filepath
