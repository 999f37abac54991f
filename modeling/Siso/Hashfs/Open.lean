import Siso.Hashfs.Follow

/-!
# `FileSystem.Open`, and the `File` and `Dir` it returns

`Open` stats a name, following symlinks as `Stat` does, and reads the node it reaches from
`HashFS` at its `Path()` with an empty root: the entries of a directory into a `Dir`, the
contents of a file into a `File`.  Both hand what they hold to their caller piece by piece:
`File.Read` copies as much of the rest as the caller's buffer takes, and `Dir.ReadDir(n)`
returns the next `n` entries, or all that are left for `n ≤ 0`.

Whether a `FileInfo` is a directory is in its mode, which `Info` does not carry, so `IsDir` is a
parameter, as are `HashFS.ReadDir` and `HashFS.ReadFile`, which are not in the repository's
files.

The results are the contracts of `io.Reader` and `fs.ReadDirFile` over any sequence of calls a
caller makes (`results`, `after`), proved once for a call that hands out the front of what its
handle holds: what the calls return, in order, followed by what the handle still holds, is what
`Open` put in it, so nothing is lost, repeated or reordered; a call with room returns something
unless nothing is left, and then `io.EOF`; and once `io.EOF` is returned, everything has been.
Over a `HashFS` that answers by path, the file `Open` returns reads back, up to `io.EOF`, the
contents at the end of the symlink chase from the name, and the directory the entries there.
-/

namespace Siso.Hashfs

open Go Filepath

/-- `io.EOF`, and `fs.ErrPermission`, which `Dir.Read` returns. -/
inductive ReadError
  | eof
  | permission
  deriving DecidableEq, Repr

/-- `File`: the contents not read yet, and the `FileInfo`. -/
structure File where
  buf : List UInt8
  fi : Info
  deriving DecidableEq, Repr

/-- `File.Read(buf)` with `len(buf) = len`: the bytes copied into `buf`, as many as the `n` it
returns, and the file after. -/
def File.read (f : File) (len : Nat) : Except ReadError (List UInt8) × File :=
  if f.buf.isEmpty then (.error .eof, f)
  else
    let n := min len f.buf.length
    (.ok (f.buf.take n), { f with buf := f.buf.drop n })

/-- `Dir`: the entries not read yet, and the `FileInfo`. -/
structure Dir (δ : Type) where
  ents : List δ
  fi : Info
  deriving DecidableEq, Repr

/-- `Dir.Read`: a directory is not read as a file. -/
def Dir.read {δ : Type} (d : Dir δ) (_len : Nat) : Except ReadError (List UInt8) × Dir δ :=
  (.error .permission, d)

/-- The loop `for i, e = range d.ents { if i == n { break }; ents = append(ents, e) }` of
`Dir.ReadDir(n)`, at index `i` with `ents` collected. -/
def readDirLoop {δ : Type} (n : Int) : Nat → List δ → List δ → List δ
  | _, [], ents => ents
  | i, e :: rest, ents => if (i : Int) = n then ents else readDirLoop n (i + 1) rest (ents ++ [e])

/-- `Dir.ReadDir(n)`: the entries returned, and the directory after. -/
def Dir.readDir {δ : Type} (d : Dir δ) (n : Int) : Except ReadError (List δ) × Dir δ :=
  if n ≤ 0 then (.ok d.ents, { d with ents := [] })
  else if d.ents.isEmpty then (.error .eof, d)
  else
    let ents := readDirLoop n 0 d.ents []
    (.ok ents, { d with ents := d.ents.drop ents.length })

/-- The `fs.File` that `Open` returns. -/
inductive Handle (δ : Type)
  | file (f : File)
  | dir (d : Dir δ)
  deriving DecidableEq, Repr

/-- The `Err` of the `fs.PathError` of `Open`: the error of `Stat`, itself a `fs.PathError`, or
the error of `HashFS.ReadDir` or `HashFS.ReadFile`. -/
inductive OpenErr (ε η : Type)
  | stat (err : PathError ε)
  | hashfs (e : η)
  deriving DecidableEq, Repr

/-- `fs.PathError{Op, Path, Err}` of `Open`. -/
structure OpenError (ε η : Type) where
  op : List UInt8
  path : List UInt8
  err : OpenErr ε η
  deriving DecidableEq, Repr

section Open

variable {ε η δ : Type} (dir : List UInt8) (hstat : List UInt8 → List UInt8 → Except ε Info)
  (isDir : Info → Bool) (hashReadDir : List UInt8 → List UInt8 → Except η (List δ))
  (hashReadFile : List UInt8 → List UInt8 → Except η (List UInt8))

/-- `FileSystem.Open(name)`. -/
def fsOpen (name : List UInt8) : Except (OpenError ε η) (Handle δ) :=
  match stat dir hstat name with
  | .failed _ _ _ err => .error ⟨str "open", name, .stat err⟩
  | .found fi _ =>
    if isDir fi then
      ((hashReadDir [] fi.path).map fun ents => .dir ⟨ents, fi⟩).mapError
        fun e => ⟨str "open", name, .hashfs e⟩
    else
      ((hashReadFile [] fi.path).map fun buf => .file ⟨buf, fi⟩).mapError
        fun e => ⟨str "open", name, .hashfs e⟩

end Open

/-! ## Calls one after the other on one handle -/

section Calls

variable {σ α β γ : Type} (call : σ → α → β × σ)

/-- The results of a caller's calls `call s a`, one after the other on one handle from `s`. -/
def results : σ → List α → List β
  | _, [] => []
  | s, a :: as => (call s a).1 :: results (call s a).2 as

/-- The handle after a caller's calls. -/
def after : σ → List α → σ
  | s, [] => s
  | s, a :: as => after (call s a).2 as

theorem length_results : ∀ (s : σ) (as : List α), (results call s as).length = as.length
  | _, [] => rfl
  | s, _ :: as => congrArg Nat.succ (length_results (call s _).2 as)

/-- A property of each call with its argument holds of each call of a run. -/
theorem results_zip (good : α → β → Prop) (each : ∀ s a, good a (call s a).1) :
    ∀ (s : σ) (as : List α), ∀ p ∈ as.zip (results call s as), good p.1 p.2
  | _, [] => fun _ h => absurd h (List.not_mem_nil _)
  | s, a :: as => by
    rw [results, List.zip_cons_cons, List.forall_mem_cons]
    exact ⟨each s a, results_zip good each _ as⟩

/-- A result of a run is the result of a call with its argument. -/
theorem exists_zip_of_mem_results {b : β} :
    ∀ (s : σ) (as : List α), b ∈ results call s as → ∃ a, (a, b) ∈ as.zip (results call s as)
  | _, [], h => absurd h (List.not_mem_nil _)
  | s, a :: as, h => by
    rw [results, List.mem_cons] at h
    rw [results, List.zip_cons_cons]
    rcases h with rfl | later
    · exact ⟨a, List.mem_cons_self _ _⟩
    · obtain ⟨a', mem⟩ := exists_zip_of_mem_results _ as later
      exact ⟨a', List.mem_cons_of_mem _ mem⟩

/-- An argument of a run is the argument of a call with its result. -/
theorem exists_zip_of_mem {a : α} :
    ∀ (s : σ) (as : List α), a ∈ as → ∃ b, (a, b) ∈ as.zip (results call s as)
  | _, [], h => absurd h (List.not_mem_nil _)
  | s, a' :: as, h => by
    rw [List.mem_cons] at h
    rw [results, List.zip_cons_cons]
    rcases h with rfl | later
    · exact ⟨_, List.mem_cons_self _ _⟩
    · obtain ⟨b, mem⟩ := exists_zip_of_mem _ as later
      exact ⟨b, List.mem_cons_of_mem _ mem⟩

variable {call} (rest : σ → List γ) (got : β → List γ)
  (step : ∀ s a, got (call s a).1 ++ rest (call s a).2 = rest s)
include step

/-- Over a run of calls that each hand out the front of what the handle holds, what the calls
return, followed by what the handle still holds, is what it held. -/
theorem results_consume :
    ∀ (s : σ) (as : List α), (results call s as).flatMap got ++ rest (after call s as) = rest s
  | _, [] => rfl
  | s, a :: as => by
    rw [results, after, List.flatMap_cons, List.append_assoc, results_consume _ as, step]

/-- Once a call has left the handle with nothing, the calls have returned all it held. -/
theorem results_all (ends : α → β → Prop)
    (endsEmpty : ∀ s a, ends a (call s a).1 → rest (call s a).2 = []) :
    ∀ (s : σ) (as : List α), (∃ p ∈ as.zip (results call s as), ends p.1 p.2) →
      (results call s as).flatMap got = rest s
  | _, [], ⟨_, h, _⟩ => absurd h (List.not_mem_nil _)
  | s, a :: as, ⟨p, mem, ended⟩ => by
    rw [results, List.zip_cons_cons, List.mem_cons] at mem
    rw [results, List.flatMap_cons, ← step s a]
    congr 1
    rcases mem with rfl | later
    · have left := results_consume rest got step (call s a).2 as
      rw [endsEmpty s a ended, List.append_eq_nil] at left
      rw [endsEmpty s a ended, left.1]
    · exact results_all ends endsEmpty _ as ⟨p, later, ended⟩

end Calls

/-- What a `Read` or a `ReadDir` returns: the bytes or the entries, none with an error. -/
def returned {γ : Type} (r : Except ReadError (List γ)) : List γ := r.toOption.getD []

@[simp]
theorem returned_ok {γ : Type} (xs : List γ) : returned (.ok xs) = xs := rfl

@[simp]
theorem returned_error {γ : Type} (e : ReadError) : returned (.error e : Except _ (List γ)) = [] :=
  rfl

/-! ## `File.Read` -/

namespace File

variable (f : File) (len : Nat)

theorem read_consume : returned (f.read len).1 ++ (f.read len).2.buf = f.buf := by
  unfold read
  split
  · rfl
  · exact List.take_append_drop _ _

theorem read_eof (eof : (f.read len).1 = .error .eof) : (f.read len).2.buf = [] := by
  unfold read at eof ⊢
  split
  · rename_i empty
    exact List.isEmpty_iff.1 empty
  · simp_all

/-- One `Read` meets `io.Reader`: at most `len` bytes, and some when `len > 0`, or `io.EOF`. -/
theorem read_count :
    (f.read len).1 = .error .eof ∨
      ∃ bs, (f.read len).1 = .ok bs ∧ bs.length ≤ len ∧ (0 < len → bs ≠ []) := by
  unfold read
  split
  · exact .inl rfl
  · rename_i nonEmpty
    have filled : 0 < f.buf.length := List.length_pos.2 fun h => nonEmpty (by simp [h])
    refine .inr ⟨_, rfl, (List.length_take_le _ _).trans (Nat.min_le_left _ _), fun room => ?_⟩
    exact List.ne_nil_of_length_pos (by rw [List.length_take]; omega)

/-- Once a `Read` has returned `io.EOF`, the calls have returned the whole contents. -/
theorem reads_all (lens : List Nat) (eof : .error .eof ∈ results read f lens) :
    (results read f lens).flatMap returned = f.buf := by
  obtain ⟨len, mem⟩ := exists_zip_of_mem_results read f lens eof
  exact results_all buf returned read_consume (fun _ r => r = .error .eof) read_eof f lens
    ⟨_, mem, rfl⟩

end File

/-- Over any sequence of `Read` calls with buffers of lengths `lens` on a `File`, the bytes they
return, followed by what the file still holds, are its contents; each call returns at most a
buffer's length of bytes, and some when the buffer has room, or else `io.EOF`; and once a call
has returned `io.EOF`, the calls have returned the whole contents. -/
theorem read_contract (f : File) (lens : List Nat) :
    (results File.read f lens).flatMap returned ++ (after File.read f lens).buf = f.buf ∧
      (.error .eof ∈ results File.read f lens →
        (results File.read f lens).flatMap returned = f.buf) ∧
      ∀ p ∈ lens.zip (results File.read f lens), p.2 = .error .eof ∨
        ∃ bs, p.2 = .ok bs ∧ bs.length ≤ p.1 ∧ (0 < p.1 → bs ≠ []) :=
  ⟨results_consume File.buf returned File.read_consume f lens, f.reads_all lens,
    results_zip File.read (fun len r => r = .error .eof ∨
      ∃ bs, r = .ok bs ∧ bs.length ≤ len ∧ (0 < len → bs ≠ [])) File.read_count f lens⟩

/-- Reads with a one-byte buffer, then with room to spare, then at the end. -/
example : results File.read ⟨str "hi", ⟨[], []⟩⟩ [1, 5, 5] =
    [.ok (str "h"), .ok (str "i"), .error .eof] := by rfl

/-! ## `Dir.ReadDir` -/

/-- From index `i` up to `n`, the loop of `ReadDir` collects the next `n - i` entries. -/
theorem readDirLoop_eq {δ : Type} {n : Int} :
    ∀ (i : Nat) (es ents : List δ), (i : Int) ≤ n →
      readDirLoop n i es ents = ents ++ es.take (n - i).toNat
  | _, [], ents, _ => by simp [readDirLoop]
  | i, e :: rest, ents, le => by
    rw [readDirLoop]
    split
    · rename_i hit
      simp [hit]
    · rename_i miss
      have more : (n - i).toNat = (n - (i + 1 : Nat)).toNat + 1 := by omega
      rw [readDirLoop_eq (i + 1) rest _ (by omega), more, List.take_succ_cons,
        List.append_assoc, List.singleton_append]

namespace Dir

variable {δ : Type} (d : Dir δ) (n : Int)

/-- For `n > 0`, `ReadDir` returns the first `n` entries. -/
theorem readDir_pos (pos : 0 < n) (nonEmpty : d.ents ≠ []) :
    d.readDir n = (.ok (d.ents.take n.toNat), { d with ents := d.ents.drop n.toNat }) := by
  have loop := readDirLoop_eq (n := n) 0 d.ents [] (by omega)
  simp only [Int.Nat.cast_ofNat_Int, Int.sub_zero, List.nil_append] at loop
  have filled : d.ents.isEmpty = false := by simpa using nonEmpty
  have dropped : d.ents.drop (min n.toNat d.ents.length) = d.ents.drop n.toNat := by
    rcases Nat.le_total n.toNat d.ents.length with le | ge
    · rw [Nat.min_eq_left le]
    · rw [Nat.min_eq_right ge, List.drop_length, List.drop_eq_nil_of_le ge]
  simp only [readDir, loop, filled, if_neg (show ¬n ≤ 0 by omega), Bool.false_eq_true, if_false,
    List.length_take, dropped]

theorem readDir_consume : returned (d.readDir n).1 ++ (d.readDir n).2.ents = d.ents := by
  by_cases nonPos : n ≤ 0
  · simp [readDir, nonPos]
  by_cases empty : d.ents = []
  · simp [readDir, nonPos, empty]
  rw [readDir_pos d n (by omega) empty]
  exact List.take_append_drop _ _

/-- After a `ReadDir(n)` with `n ≤ 0`, or one that returned `io.EOF`, no entry is left. -/
theorem readDir_ends (ended : n ≤ 0 ∨ (d.readDir n).1 = .error .eof) :
    (d.readDir n).2.ents = [] := by
  by_cases nonPos : n ≤ 0
  · simp [readDir, nonPos]
  by_cases empty : d.ents = []
  · simp [readDir, nonPos, empty]
  rw [readDir_pos d n (by omega) empty] at ended
  simp [nonPos] at ended

/-- One `ReadDir(n)` meets `fs.ReadDirFile`: for `n > 0`, between one and `n` entries, or
`io.EOF`; for `n ≤ 0`, no error. -/
theorem readDir_count :
    (0 < n → (d.readDir n).1 = .error .eof ∨
      ∃ es, (d.readDir n).1 = .ok es ∧ es ≠ [] ∧ es.length ≤ n.toNat) ∧
    (n ≤ 0 → ∃ es, (d.readDir n).1 = .ok es) := by
  by_cases nonPos : n ≤ 0
  · exact ⟨fun pos => absurd pos (by omega), fun _ => ⟨d.ents, by simp [readDir, nonPos]⟩⟩
  refine ⟨fun pos => ?_, fun h => absurd h nonPos⟩
  by_cases empty : d.ents = []
  · exact .inl (by simp [readDir, nonPos, empty])
  have filled := List.length_pos.2 empty
  rw [readDir_pos d n pos empty]
  exact .inr ⟨_, rfl, List.ne_nil_of_length_pos (by rw [List.length_take]; omega),
    List.length_take_le _ _⟩

/-- Once a `ReadDir(n)` with `n ≤ 0` has been made or one has returned `io.EOF`, the calls have
returned every entry. -/
theorem readDirs_all (ns : List Int)
    (ended : (∃ n ∈ ns, n ≤ 0) ∨ .error .eof ∈ results readDir d ns) :
    (results readDir d ns).flatMap returned = d.ents := by
  obtain ⟨n, r, mem, last⟩ : ∃ n r, (n, r) ∈ ns.zip (results readDir d ns) ∧
      (n ≤ 0 ∨ r = .error .eof) := by
    rcases ended with ⟨n, mem, nonPos⟩ | eof
    · obtain ⟨r, mem⟩ := exists_zip_of_mem readDir d ns mem
      exact ⟨n, r, mem, .inl nonPos⟩
    · obtain ⟨n, mem⟩ := exists_zip_of_mem_results readDir d ns eof
      exact ⟨n, _, mem, .inr rfl⟩
  exact results_all ents returned readDir_consume (fun n r => n ≤ 0 ∨ r = .error .eof)
    readDir_ends d ns ⟨_, mem, last⟩

end Dir

/-- Over any sequence of `ReadDir(n)` calls on a `Dir`, the entries they return, followed by
those the directory still holds, are its entries; a call with `n > 0` returns between one and
`n` entries, or else `io.EOF`; one with `n ≤ 0` returns without an error; and once a call with
`n ≤ 0` has been made or one has returned `io.EOF`, the calls have returned every entry. -/
theorem readDir_contract {δ : Type} (d : Dir δ) (ns : List Int) :
    (results Dir.readDir d ns).flatMap returned ++ (after Dir.readDir d ns).ents = d.ents ∧
      ((∃ n ∈ ns, n ≤ 0) ∨ .error .eof ∈ results Dir.readDir d ns →
        (results Dir.readDir d ns).flatMap returned = d.ents) ∧
      ∀ p ∈ ns.zip (results Dir.readDir d ns),
        (0 < p.1 → p.2 = .error .eof ∨
          ∃ es, p.2 = .ok es ∧ es ≠ [] ∧ es.length ≤ p.1.toNat) ∧
        (p.1 ≤ 0 → ∃ es, p.2 = .ok es) :=
  ⟨results_consume Dir.ents returned Dir.readDir_consume d ns, d.readDirs_all ns,
    results_zip Dir.readDir (fun n r => (0 < n → r = .error .eof ∨
      ∃ es, r = .ok es ∧ es ≠ [] ∧ es.length ≤ n.toNat) ∧ (n ≤ 0 → ∃ es, r = .ok es))
      Dir.readDir_count d ns⟩

/-- Two entries at a time over three, then the end, then all that is left. -/
example : results Dir.readDir (⟨[1, 2, 3], ⟨[], []⟩⟩ : Dir Nat) [2, 2, 2, 0] =
    [.ok [1, 2], .ok [3], .error .eof, .ok []] := by rfl

/-! ## `Open` -/

section OpenSpec

variable {ε η δ : Type} {dir : List UInt8} {hstat : List UInt8 → List UInt8 → Except ε Info}
  {isDir : Info → Bool} {hashReadDir : List UInt8 → List UInt8 → Except η (List δ)}
  {hashReadFile : List UInt8 → List UInt8 → Except η (List UInt8)} {name : List UInt8}

/-- Every error of `Open` is a `fs.PathError` with the `Op` `open` and the name as its `Path`. -/
theorem fsOpen_error {e : OpenError ε η}
    (failed : fsOpen dir hstat isDir hashReadDir hashReadFile name = .error e) :
    e.op = str "open" ∧ e.path = name := by
  unfold fsOpen at failed
  split at failed
  · cases failed
    exact ⟨rfl, rfl⟩
  · split at failed
    · cases h : hashReadDir [] _ <;> rw [h] at failed <;> cases failed
      exact ⟨rfl, rfl⟩
    · cases h : hashReadFile [] _ <;> rw [h] at failed <;> cases failed
      exact ⟨rfl, rfl⟩

/-- A file `Open` returns holds what `HashFS.ReadFile` gave at the path of the node `Stat`
reached, which is not a directory. -/
theorem fsOpen_file {f : File}
    (opened : fsOpen dir hstat isDir hashReadDir hashReadFile name = .ok (.file f)) :
    ∃ fis, stat dir hstat name = .found f.fi fis ∧ isDir f.fi = false ∧
      hashReadFile [] f.fi.path = .ok f.buf := by
  unfold fsOpen at opened
  split at opened
  · cases opened
  · rename_i fi fis found
    split at opened
    · cases h : hashReadDir [] fi.path <;> rw [h] at opened <;> cases opened
    · rename_i notDir
      cases h : hashReadFile [] fi.path <;> rw [h] at opened <;> cases opened
      exact ⟨fis, found, by simpa using notDir, h⟩

/-- A directory `Open` returns holds the entries `HashFS.ReadDir` gave at the path of the
directory `Stat` reached. -/
theorem fsOpen_dir {d : Dir δ}
    (opened : fsOpen dir hstat isDir hashReadDir hashReadFile name = .ok (.dir d)) :
    ∃ fis, stat dir hstat name = .found d.fi fis ∧ isDir d.fi = true ∧
      hashReadDir [] d.fi.path = .ok d.ents := by
  unfold fsOpen at opened
  split at opened
  · cases opened
  · rename_i fi fis found
    split at opened
    · rename_i isDirectory
      cases h : hashReadDir [] fi.path <;> rw [h] at opened <;> cases opened
      exact ⟨fis, found, isDirectory, h⟩
    · cases h : hashReadFile [] fi.path <;> rw [h] at opened <;> cases opened

end OpenSpec

/-- Where `Stat` over a `HashFS` that answers by path finds a node, the symlink chase from the
name ends there without an error. -/
theorem stat_found_chase {ε : Type} {dir : List UInt8} (dirAbs : isAbs dir)
    {look : List UInt8 → Except ε (List UInt8)} {name : List UInt8} {fi : Info} {fis : List Info}
    (found : stat dir (hashfsStat look) name = .found fi fis) :
    statChase dir look name maxSymlinks (absPath dir name) [] = (fis ++ [fi], none) := by
  have chase := statLoop_chase dirAbs look name maxSymlinks name []
  unfold stat at found
  rw [found] at chase
  exact chase.symm

/-- `IsDir` in the tree of `linkToB`, where `/w/b` is a directory. -/
def linkToBIsDir (fi : Info) : Bool := fi.path == str "/w/b"

/-- `HashFS.ReadDir` in the tree of `linkToB`: the directory `/w/b` holds `c`. -/
def readsLinkToBDir (_root p : List UInt8) : Except Unit (List (List UInt8)) :=
  if p = str "/w/b" then .ok [str "c"] else .error ()

/-- `HashFS.ReadFile` in the tree of `linkToB`, which has no file. -/
def readsLinkToBFile (_root _p : List UInt8) : Except Unit (List UInt8) := .error ()

/-- `Open` over a `HashFS` that answers by path: every error is a `fs.PathError` with the `Op`
`open` and the name as its `Path`; a file it returns, read up to `io.EOF` with buffers of any
lengths, gives back what `HashFS.ReadFile` holds at the end of the symlink chase from the name,
a node that is not a directory; and a directory it returns, read by `ReadDir` up to `io.EOF` or
a call with `n ≤ 0`, gives back the entries `HashFS.ReadDir` holds there. -/
theorem open_contract {ε η δ : Type} {dir : List UInt8} (dirAbs : isAbs dir)
    (look : List UInt8 → Except ε (List UInt8)) (isDir : Info → Bool)
    (hashReadDir : List UInt8 → List UInt8 → Except η (List δ))
    (hashReadFile : List UInt8 → List UInt8 → Except η (List UInt8)) (name : List UInt8) :
    (∀ e, fsOpen dir (hashfsStat look) isDir hashReadDir hashReadFile name = .error e →
      e.op = str "open" ∧ e.path = name) ∧
    (∀ f lens, fsOpen dir (hashfsStat look) isDir hashReadDir hashReadFile name = .ok (.file f) →
      .error .eof ∈ results File.read f lens →
      ∃ fis, statChase dir look name maxSymlinks (absPath dir name) [] = (fis ++ [f.fi], none) ∧
        isDir f.fi = false ∧
        hashReadFile [] f.fi.path = .ok ((results File.read f lens).flatMap returned)) ∧
    (∀ d ns, fsOpen dir (hashfsStat look) isDir hashReadDir hashReadFile name = .ok (.dir d) →
      (∃ n ∈ ns, n ≤ 0) ∨ .error .eof ∈ results Dir.readDir d ns →
      ∃ fis, statChase dir look name maxSymlinks (absPath dir name) [] = (fis ++ [d.fi], none) ∧
        isDir d.fi = true ∧
        hashReadDir [] d.fi.path = .ok ((results Dir.readDir d ns).flatMap returned)) := by
  refine ⟨fun _ => fsOpen_error, fun f lens opened eof => ?_, fun d ns opened ended => ?_⟩
  · obtain ⟨fis, found, notDir, contents⟩ := fsOpen_file opened
    exact ⟨fis, stat_found_chase dirAbs found, notDir, f.reads_all lens eof ▸ contents⟩
  · obtain ⟨fis, found, isDirectory, entries⟩ := fsOpen_dir opened
    exact ⟨fis, stat_found_chase dirAbs found, isDirectory, d.readDirs_all ns ended ▸ entries⟩

theorem open_contract_linkToB :
    isAbs (str "/w") ∧
    (∀ e, fsOpen (str "/w") (hashfsStat linkToB) linkToBIsDir readsLinkToBDir readsLinkToBFile
        (str "a") = .error e → e.op = str "open" ∧ e.path = str "a") ∧
    (∀ f lens, fsOpen (str "/w") (hashfsStat linkToB) linkToBIsDir readsLinkToBDir
        readsLinkToBFile (str "a") = .ok (.file f) →
      .error .eof ∈ results File.read f lens →
      ∃ fis, statChase (str "/w") linkToB (str "a") maxSymlinks (absPath (str "/w") (str "a"))
          [] = (fis ++ [f.fi], none) ∧
        linkToBIsDir f.fi = false ∧
        readsLinkToBFile [] f.fi.path = .ok ((results File.read f lens).flatMap returned)) ∧
    (∀ d ns, fsOpen (str "/w") (hashfsStat linkToB) linkToBIsDir readsLinkToBDir
        readsLinkToBFile (str "a") = .ok (.dir d) →
      (∃ n ∈ ns, n ≤ 0) ∨ .error .eof ∈ results Dir.readDir d ns →
      ∃ fis, statChase (str "/w") linkToB (str "a") maxSymlinks (absPath (str "/w") (str "a"))
          [] = (fis ++ [d.fi], none) ∧
        linkToBIsDir d.fi = true ∧
        readsLinkToBDir [] d.fi.path = .ok ((results Dir.readDir d ns).flatMap returned)) :=
  ⟨by decide, open_contract (by decide) linkToB linkToBIsDir readsLinkToBDir readsLinkToBFile
    (str "a")⟩

/-- `Open("a")` follows `a` to the directory `b`. -/
example : fsOpen (str "/w") (hashfsStat linkToB) linkToBIsDir readsLinkToBDir readsLinkToBFile
    (str "a") =
      .ok (.dir ⟨[str "c"], ⟨str "/w/b", []⟩⟩) := by rfl

end Siso.Hashfs
