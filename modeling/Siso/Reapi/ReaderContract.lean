import Siso.Reapi.Bytestreamio

/-!
# What a bytestream `Reader` returns

Every reader that `Open` returns and `Read` calls reach is `Reader.Sound`: its log holds the
stream's first results in order, the bytes the `Read` calls returned followed by the bytes still
buffered are the `Data` received, `size` counts the bytes returned, and after a `Recv` that
returned an error nothing is buffered.  So the bytes returned are a prefix of the `Data`
received, with nothing skipped, repeated or reordered, and whatever the chunking of the stream
and the lengths of the buffers; `Size` is their number; and on a stream that ends at its first
error, once a `Recv` returned that error every byte received has been returned.  A `Read` that finds
the buffer empty receives the next response and returns as much of its `Data` as fits.
-/

namespace Siso.Bytestreamio

/-- The `Data` of what `Recv` returned, nothing for an error. -/
def RecvResult.bytes : RecvResult → List UInt8
  | .data d => d
  | .error => []

/-- The `Data` `Recv` returned over a log, concatenated in order. -/
def received (log : List RecvResult) : List UInt8 := (log.map RecvResult.bytes).flatten

/-- The bytes a run of `Read` calls returned, concatenated in order. -/
def returned (outs : List (List UInt8 × Option ReadError)) : List UInt8 :=
  (outs.map (·.1)).flatten

@[simp] theorem received_append_singleton (log : List RecvResult) (resp : RecvResult) :
    received (log ++ [resp]) = received log ++ resp.bytes := by
  simp [received]

@[simp] theorem returned_cons (out : List UInt8 × Option ReadError)
    (outs : List (List UInt8 × Option ReadError)) :
    returned (out :: outs) = out.1 ++ returned outs := rfl

/-- `copy` hands out the start of the data and keeps the rest, counting what it hands out. -/
theorem Reader.copyOut_spec (r : Reader) (data : List UInt8) (len : Nat) :
    (r.copyOut data len).1.rd = r.rd ∧ (r.copyOut data len).1.log = r.log ∧
      (r.copyOut data len).2 ++ (r.copyOut data len).1.buf = data ∧
      (r.copyOut data len).1.size = r.size + (r.copyOut data len).2.length := by
  simp only [Reader.copyOut, List.take_append_drop, List.length_take, true_and]
  omega

/-- A `Read` that finds the buffer empty receives the stream's next response and hands out the
first `len` bytes of its `Data`, or returns the error `Recv` returned. -/
theorem Reader.read_of_empty {r : Reader} (rd : r.rd = true) (empty : r.buf = [])
    (recv : Nat → RecvResult) (len : Nat) :
    (r.read recv len).1.log = r.log ++ [recv r.log.length] ∧
      (r.read recv len).2.1 = (recv r.log.length).bytes.take len ∧
      ((r.read recv len).2.2 = none ↔ recv r.log.length ≠ .error) := by
  simp only [Reader.read, rd, empty, Bool.not_true, List.length_nil, Nat.lt_irrefl, if_false]
  cases recv r.log.length <;> simp [Reader.copyOut, RecvResult.bytes]

/-- A stream that ends at its first error: once `Recv` returned an error it returns one again,
as a gRPC stream does. -/
def Ends (recv : Nat → RecvResult) : Prop := ∀ k, recv k = .error → recv (k + 1) = .error

/-- On a stream that ends at its first error, every `Recv` after an error returns one. -/
theorem Ends.error_of_le {recv : Nat → RecvResult} (ends : Ends recv) {k m : Nat}
    (failed : recv k = .error) (later : k ≤ m) : recv m = .error := by
  induction m, later using Nat.le_induction with
  | base => exact failed
  | succ m _ ih => exact ends m ih

/-- The invariant of the readers `Read` reaches against the stream `recv`, `out` being the bytes
the `Read` calls returned so far. -/
structure Reader.Sound (recv : Nat → RecvResult) (r : Reader) (out : List UInt8) : Prop where
  rd : r.rd = true
  results : ∀ k (h : k < r.log.length), r.log[k] = recv k
  stream : out ++ r.buf = received r.log
  size_eq : r.size = out.length
  drained : r.log.getLast? = some .error → r.buf = []

namespace Reader.Sound

variable {recv : Nat → RecvResult} {r : Reader} {out : List UInt8}

theorem init (recv : Nat → RecvResult) : Reader.init.Sound recv [] where
  rd := rfl
  results _ h := absurd h (Nat.not_lt_zero _)
  stream := rfl
  size_eq := rfl
  drained _ := rfl

/-- Logging what the next `Recv` returns keeps the log the stream's first results. -/
theorem results_append (sound : r.Sound recv out) :
    ∀ k (h : k < (r.log ++ [recv r.log.length]).length),
      (r.log ++ [recv r.log.length])[k] = recv k := by
  intro k h
  rw [List.length_append, List.length_singleton] at h
  rcases Nat.lt_succ_iff_lt_or_eq.1 h with lt | rfl
  · rw [List.getElem_append_left lt]; exact sound.results k lt
  · simp

/-- `Read` keeps the invariant, the bytes it returns appended to those returned before. -/
theorem read (sound : r.Sound recv out) (len : Nat) :
    (r.read recv len).1.Sound recv (out ++ (r.read recv len).2.1) := by
  unfold Reader.read
  rw [if_neg (by simp [sound.rd])]
  split
  · -- what is left of the last `Data`
    rename_i buffered
    obtain ⟨rd, log, stream, size⟩ := r.copyOut_spec r.buf len
    refine ⟨rd.trans sound.rd, log ▸ sound.results, ?_, ?_, fun last => ?_⟩
    · rw [List.append_assoc, stream, log, sound.stream]
    · rw [size, sound.size_eq, List.length_append]
    · rw [log] at last
      exact absurd (sound.drained last) (List.ne_nil_of_length_pos buffered)
  · rename_i empty
    have drained : r.buf = [] := List.eq_nil_of_length_eq_zero (Nat.eq_zero_of_not_pos empty)
    have caughtUp : out = received r.log := by simpa [drained] using sound.stream
    dsimp only
    split
    · -- `Recv` returned an error
      rename_i failed
      refine ⟨sound.rd, sound.results_append, ?_, by simpa using sound.size_eq,
        fun _ => drained⟩
      simp [drained, caughtUp, failed, RecvResult.bytes]
    · -- a new response
      rename_i data responded
      obtain ⟨rd, log, stream, size⟩ :=
        Reader.copyOut_spec { r with log := r.log ++ [recv r.log.length] } data len
      refine ⟨rd.trans sound.rd, log ▸ sound.results_append, ?_, ?_, fun last => ?_⟩
      · rw [List.append_assoc, stream, log, caughtUp, received_append_singleton, responded]
        rfl
      · rw [size, sound.size_eq, List.length_append]
      · rw [log] at last
        simp [responded] at last

/-- A run of `Read` calls keeps the invariant. -/
theorem readAll (sound : r.Sound recv out) (lens : List Nat) :
    (Bytestreamio.readAll recv r lens).1.Sound recv
      (out ++ returned (Bytestreamio.readAll recv r lens).2) := by
  induction lens generalizing r out with
  | nil => simpa [Bytestreamio.readAll, returned] using sound
  | cons len lens ih =>
    simpa only [Bytestreamio.readAll, returned_cons, List.append_assoc] using
      ih (sound.read len)

/-- On a stream that ends at its first error, once a `Recv` returned it nothing is buffered. -/
theorem drained_of_ends (sound : r.Sound recv out) (ends : Ends recv)
    (failed : RecvResult.error ∈ r.log) : r.buf = [] := by
  obtain ⟨k, hk, atK⟩ := List.getElem_of_mem failed
  apply sound.drained
  rw [List.getLast?_eq_getElem?, List.getElem?_eq_getElem (by omega),
    sound.results _ (by omega)]
  exact congrArg some (ends.error_of_le (atK ▸ (sound.results k hk).symm) (by omega))

end Reader.Sound

/-- The contract of `Read` and `Size` against the stream `recv`, over every run of `Read` calls
on the reader `Open` returns, with buffers of any lengths: the bytes are returned in order with
none lost or repeated, and a `Read` on an empty buffer makes progress on the stream. -/
structure ReaderContract (recv : Nat → RecvResult) : Prop where
  /-- The `Recv` calls made returned the stream's first results, in order. -/
  received_in_order : ∀ lens k (h : k < (readAll recv .init lens).1.log.length),
    (readAll recv .init lens).1.log[k] = recv k
  /-- The bytes returned, concatenated, are a prefix of the `Data` received. -/
  returned_prefix : ∀ lens,
    returned (readAll recv .init lens).2 <+: received (readAll recv .init lens).1.log
  /-- On a stream that ends at its first error, once a `Recv` returned it the bytes returned
  are all the `Data` received. -/
  returned_all : Ends recv → ∀ lens, RecvResult.error ∈ (readAll recv .init lens).1.log →
    returned (readAll recv .init lens).2 = received (readAll recv .init lens).1.log
  /-- `Size` is the number of bytes returned. -/
  size_returned : ∀ lens,
    (readAll recv .init lens).1.size = (returned (readAll recv .init lens).2).length
  /-- The next `Read`, when the buffer is empty, receives the stream's next response and returns
  the first `len` bytes of its `Data`, or the error `Recv` returned. -/
  reads_next : ∀ lens len, (readAll recv .init lens).1.buf = [] →
    ((readAll recv .init lens).1.read recv len).1.log =
        (readAll recv .init lens).1.log ++ [recv (readAll recv .init lens).1.log.length] ∧
      ((readAll recv .init lens).1.read recv len).2.1 =
        (recv (readAll recv .init lens).1.log.length).bytes.take len ∧
      (((readAll recv .init lens).1.read recv len).2.2 = none ↔
        recv (readAll recv .init lens).1.log.length ≠ .error)

theorem reader_contract (recv : Nat → RecvResult) : ReaderContract recv where
  received_in_order lens := ((Reader.Sound.init recv).readAll lens).results
  returned_prefix lens := ⟨_, ((Reader.Sound.init recv).readAll lens).stream⟩
  returned_all ends lens failed := by
    have sound := (Reader.Sound.init recv).readAll lens
    simpa [sound.drained_of_ends ends failed] using sound.stream
  size_returned lens := ((Reader.Sound.init recv).readAll lens).size_eq
  reads_next lens len empty :=
    Reader.read_of_empty ((Reader.Sound.init recv).readAll lens).rd empty recv len

/-- A stream of the chunks `ab`, an empty one and `cde`, then `io.EOF`. -/
def threeChunks (k : Nat) : RecvResult :=
  match k with
  | 0 => .data [97, 98]
  | 1 => .data []
  | 2 => .data [99, 100, 101]
  | _ => .error

example : returned (readAll threeChunks .init [1, 3, 3, 3, 3, 3]).2 = [97, 98, 99, 100, 101] ∧
    (readAll threeChunks .init [1, 3, 3, 3, 3, 3]).1.size = 5 := by decide

end Siso.Bytestreamio
