import Siso.Reapi.Bytestreamio
import Mathlib.Algebra.Order.Ring.Nat

/-!
# What a bytestream `Writer` sends

Every writer that `Create` returns and `Write` calls reach is `Sound`: each request carries
as its offset the data `Send` accepted before it, each data request carries between one byte
and 2 MiB, `offset` is all the data accepted, and `ok` is set exactly when a `Send` returned
`io.EOF`, which is the last request of the log.  From it: against a server that accepts every
request the data sent is the buffers written, in order, and `Close` finishes at their total
length; a `Write` whose `Send` fails reports the bytes of its buffer that were accepted; and
after `io.EOF` a `Write` sends nothing and reports its full length.
-/

namespace Siso.Bytestreamio

/-- The data bytes `Send` accepted for one logged request. -/
def accepted (e : WriteRequest × SendResult) : Nat := if e.2 = .ok then e.1.data.length else 0

/-- The data bytes `Send` accepted over a log. -/
def acceptedBytes (log : List (WriteRequest × SendResult)) : Nat := (log.map accepted).sum

/-- The data of the logged requests, concatenated in order. -/
def dataSent (log : List (WriteRequest × SendResult)) : List UInt8 := (log.map (·.1.data)).flatten

/-- Whether some `Send` of the log returned `io.EOF`. -/
def eofSeen (log : List (WriteRequest × SendResult)) : Bool := log.any (·.2 = .eof)

@[simp] theorem acceptedBytes_nil : acceptedBytes [] = 0 := rfl

@[simp] theorem acceptedBytes_append (log log' : List (WriteRequest × SendResult)) :
    acceptedBytes (log ++ log') = acceptedBytes log + acceptedBytes log' := by
  induction log with
  | nil => simp [acceptedBytes]
  | cons e log ih =>
    simp only [acceptedBytes, List.cons_append, List.map_cons, List.sum_cons] at ih ⊢
    omega

@[simp] theorem acceptedBytes_singleton (e : WriteRequest × SendResult) :
    acceptedBytes [e] = accepted e := by
  simp [acceptedBytes]

@[simp] theorem dataSent_append (log log' : List (WriteRequest × SendResult)) :
    dataSent (log ++ log') = dataSent log ++ dataSent log' := by
  simp [dataSent]

@[simp] theorem eofSeen_append (log log' : List (WriteRequest × SendResult)) :
    eofSeen (log ++ log') = (eofSeen log || eofSeen log') := by
  simp [eofSeen]

/-- Each logged request carries as its offset the data accepted before it. -/
def OffsetsAccepted (log : List (WriteRequest × SendResult)) : Prop :=
  ∀ k (h : k < log.length), (log[k]).1.writeOffset = acceptedBytes (log.take k)

/-- A request whose `Send` returned `io.EOF` is the last of the log. -/
def EofLast (log : List (WriteRequest × SendResult)) : Prop :=
  ∀ k (h : k < log.length), (log[k]).2 = .eof → k + 1 = log.length

/-- The invariant of the writers `Write` reaches against the server `send`. -/
structure Sound (send : Nat → SendResult) (w : Writer) : Prop where
  wr : w.wr = true
  results : ∀ k (h : k < w.log.length), (w.log[k]).2 = send k
  offset_eq : w.offset = acceptedBytes w.log
  offsets : OffsetsAccepted w.log
  requests : ∀ e ∈ w.log, e.1.resourceName = w.resname ∧ e.1.finishWrite = false ∧
    0 < e.1.data.length ∧ e.1.data.length ≤ streamBufSize
  ok_eq : w.ok = eofSeen w.log
  eof_last : EofLast w.log

theorem OffsetsAccepted.append {log : List (WriteRequest × SendResult)}
    (offsets : OffsetsAccepted log) {e : WriteRequest × SendResult}
    (at_ : e.1.writeOffset = acceptedBytes log) : OffsetsAccepted (log ++ [e]) := by
  intro k hk
  rcases Nat.lt_or_ge k log.length with lt | ge
  · rw [List.getElem_append_left lt, List.take_append_of_le_length lt.le]
    exact offsets k lt
  · have : k = log.length := by simp at hk; omega
    subst this
    simp [at_]

theorem EofLast.append {log : List (WriteRequest × SendResult)} (noEof : eofSeen log = false)
    (e : WriteRequest × SendResult) : EofLast (log ++ [e]) := by
  intro k hk eof
  rcases Nat.lt_or_ge k log.length with lt | ge
  · rw [List.getElem_append_left lt] at eof
    simp only [eofSeen, List.any_eq_false] at noEof
    exact absurd eof (by simpa using noEof _ (List.getElem_mem lt))
  · simp at hk ⊢; omega

section Send

variable {send : Nat → SendResult}

/-- One round of the loop of `Write` keeps the writer sound. -/
theorem Sound.logRequest {w : Writer} (sound : Sound send w) (noEof : w.ok = false)
    {rest : List UInt8} (nonempty : rest ≠ []) {result : SendResult}
    (logged : result = send w.log.length) :
    let bufsize := min rest.length streamBufSize
    let w' :=
      { w with log := w.log ++ [(⟨w.resname, w.offset, false, rest.take bufsize⟩, result)] }
    (result = .ok → Sound send { w' with offset := w.offset + bufsize }) ∧
      (result = .eof → Sound send { w' with ok := true }) ∧
      (result = .error → Sound send w') := by
  intro bufsize w'
  have noEofLog : eofSeen w.log = false := sound.ok_eq ▸ noEof
  have results : ∀ k (h : k < w'.log.length), (w'.log[k]).2 = send k := by
    intro k hk
    rcases Nat.lt_or_ge k w.log.length with lt | ge
    · simp only [w', List.getElem_append_left lt]
      exact sound.results k lt
    · have : k = w.log.length := by simp [w'] at hk; omega
      subst this
      simp [w', logged]
  have offsets :
      OffsetsAccepted (w.log ++ [(⟨w.resname, w.offset, false, rest.take bufsize⟩, result)]) :=
    sound.offsets.append sound.offset_eq
  have eofLast :=
    EofLast.append noEofLog (⟨w.resname, w.offset, false, rest.take bufsize⟩, result)
  have positive : 0 < streamBufSize := by decide
  have length : 0 < rest.length := List.length_pos.2 nonempty
  have taken : (rest.take bufsize).length = bufsize := List.length_take_of_le (Nat.min_le_left _ _)
  have requests : ∀ e ∈ w'.log, e.1.resourceName = w.resname ∧ e.1.finishWrite = false ∧
      0 < e.1.data.length ∧ e.1.data.length ≤ streamBufSize := by
    simp only [w', List.mem_append, List.mem_singleton]
    rintro e (old | rfl)
    · exact sound.requests e old
    · simp only [taken, true_and, bufsize]; omega
  refine ⟨fun h => ?_, fun h => ?_, fun h => ?_⟩ <;> subst h <;>
    exact ⟨sound.wr, results, by simp [w', sound.offset_eq, accepted, taken], offsets, requests,
      by simp only [w', eofSeen_append, noEofLog]; simp [eofSeen, noEof], eofLast⟩

/-- The loop of `Write` keeps the writer sound. -/
theorem sendFrom_sound {w : Writer} (sound : Sound send w) (noEof : w.ok = false) (n p : Nat)
    (rest : List UInt8) : Sound send (sendFrom send w n p rest).1 := by
  induction w, n, p, rest using sendFrom.induct send with
  | case1 w n p => rw [sendFrom]; exact sound
  | case2 w n p b bs result isEof =>
    have isEof : send w.log.length = .eof := isEof
    rw [sendFrom]; simp only [isEof]
    exact (sound.logRequest noEof (List.cons_ne_nil b bs) isEof.symm).2.1 rfl
  | case3 w n p b bs result isError =>
    have isError : send w.log.length = .error := isError
    rw [sendFrom]; simp only [isError]
    exact (sound.logRequest noEof (List.cons_ne_nil b bs) isError.symm).2.2 rfl
  | case4 w n p b bs bufsize req result w' isOk ih =>
    have isOk : send w.log.length = .ok := isOk
    simp only [w', req, bufsize, result, isOk] at ih
    rw [sendFrom]; simp only [isOk]
    exact ih ((sound.logRequest noEof (List.cons_ne_nil b bs) isOk.symm).1 rfl) noEof

/-- The loop of `Write` returns the whole length, or, when a `Send` fails, the bytes it got
accepted before. -/
theorem sendFrom_returns (w : Writer) (n p : Nat) (rest : List UInt8) :
    ((sendFrom send w n p rest).2.2 = none → (sendFrom send w n p rest).2.1 = n) ∧
      ((sendFrom send w n p rest).2.2 ≠ none →
        (sendFrom send w n p rest).2.1 + acceptedBytes w.log =
          p + acceptedBytes (sendFrom send w n p rest).1.log) := by
  induction w, n, p, rest using sendFrom.induct send with
  | case1 w n p => rw [sendFrom]; simp
  | case2 w n p b bs result isEof =>
    have isEof : send w.log.length = .eof := isEof
    rw [sendFrom]; simp [isEof]
  | case3 w n p b bs result isError =>
    have isError : send w.log.length = .error := isError
    rw [sendFrom]; simp [isError, accepted]
  | case4 w n p b bs bufsize req result w' isOk ih =>
    have isOk : send w.log.length = .ok := isOk
    simp only [w', req, bufsize, result, isOk] at ih
    rw [sendFrom]; simp only [isOk]
    refine ⟨ih.1, fun failed => ?_⟩
    have := ih.2 failed
    simp only [acceptedBytes_append, acceptedBytes_singleton, accepted, w', req, result, isOk,
      if_true, List.length_take] at this
    omega

/-- Against a server that accepts every request, the loop of `Write` sends the rest of the
buffer and returns its whole length. -/
theorem sendFrom_accepting (allOk : ∀ k, send k = .ok) (w : Writer) (n p : Nat)
    (rest : List UInt8) :
    (sendFrom send w n p rest).2 = (n, none) ∧
      dataSent (sendFrom send w n p rest).1.log = dataSent w.log ++ rest ∧
      (sendFrom send w n p rest).1.offset = w.offset + rest.length ∧
      (sendFrom send w n p rest).1.resname = w.resname ∧
      (sendFrom send w n p rest).1.ok = w.ok ∧
      (sendFrom send w n p rest).1.wr = w.wr := by
  induction w, n, p, rest using sendFrom.induct send with
  | case1 w n p => rw [sendFrom]; simp
  | case2 w n p b bs result isEof =>
    exact absurd (allOk w.log.length) (by simp [result] at isEof; simp [isEof])
  | case3 w n p b bs result isError =>
    exact absurd (allOk w.log.length) (by simp [result] at isError; simp [isError])
  | case4 w n p b bs bufsize req result w' isOk ih =>
    have isOk : send w.log.length = .ok := isOk
    simp only [w', req, bufsize, result, isOk] at ih
    rw [sendFrom]; simp only [isOk]
    obtain ⟨returned, data, offset, resname, ok, wr⟩ := ih
    refine ⟨returned, ?_, ?_, resname, ok, wr⟩
    · rw [data]
      simp [w', req, dataSent, bufsize]
    · rw [offset, List.length_drop]
      have : bufsize ≤ (b :: bs).length := Nat.min_le_left _ _
      simp only [w', bufsize] at this ⊢
      omega

/-- `Write` keeps the writer sound. -/
theorem Sound.write {w : Writer} (sound : Sound send w) (buf : List UInt8) :
    Sound send (w.write send buf).1 := by
  cases ok : w.ok
  · simpa [Writer.write, sound.wr, ok] using sendFrom_sound sound ok buf.length 0 buf
  · simpa [Writer.write, sound.wr, ok] using sound

/-- Once a `Send` returned `io.EOF`, `Write` sends nothing and reports its full length. -/
theorem Sound.write_after_eof {w : Writer} (sound : Sound send w) (eof : eofSeen w.log = true)
    (buf : List UInt8) : w.write send buf = (w, buf.length, none) := by
  simp [Writer.write, sound.wr, sound.ok_eq, eof]

/-- A `Write` whose `Send` fails reports the bytes of its buffer that `Send` accepted, and the
offset is all the data accepted. -/
theorem Sound.write_failed {w : Writer} (sound : Sound send w) {buf : List UInt8} {e : WriteError}
    (failed : (w.write send buf).2.2 = some e) :
    (w.write send buf).2.1 = acceptedBytes (w.write send buf).1.log - acceptedBytes w.log ∧
      (w.write send buf).1.offset = acceptedBytes (w.write send buf).1.log := by
  refine ⟨?_, (sound.write buf).offset_eq⟩
  cases ok : w.ok
  · simp only [Writer.write, sound.wr, ok, Bool.not_true, Bool.false_eq_true, if_false]
      at failed ⊢
    have := (@sendFrom_returns send w buf.length 0 buf).2 (by simp [failed])
    omega
  · simp [Writer.write, sound.wr, ok] at failed

/-- The writer `Create` returns is sound. -/
theorem Sound.init (resname name : List UInt8) (size : Int) :
    Sound send (Writer.init resname name size) :=
  ⟨rfl, fun _ h => absurd h (Nat.not_lt_zero _), rfl, fun _ h => absurd h (Nat.not_lt_zero _),
    fun _ h => absurd h (List.not_mem_nil _), rfl, fun _ h => absurd h (Nat.not_lt_zero _)⟩

/-- A run of `Write` calls keeps the writer sound. -/
theorem Sound.writeAll {w : Writer} (sound : Sound send w) :
    ∀ bufs, Sound send (writeAll send w bufs).1
  | [] => sound
  | buf :: bufs => (sound.write buf).writeAll bufs

/-- Against a server that accepts every request, a run of `Write` calls sends the buffers in
order, each `Write` reports its full length, and the offset grows by the bytes written. -/
theorem writeAll_accepting (allOk : ∀ k, send k = .ok) {w : Writer} (wr : w.wr = true)
    (noEof : w.ok = false) : ∀ bufs,
    dataSent (writeAll send w bufs).1.log = dataSent w.log ++ bufs.flatten ∧
      (writeAll send w bufs).2 = bufs.map (fun buf => (buf.length, none)) ∧
      (writeAll send w bufs).1.offset = w.offset + bufs.flatten.length ∧
      (writeAll send w bufs).1.resname = w.resname ∧ (writeAll send w bufs).1.ok = false ∧
      (writeAll send w bufs).1.wr = true
  | [] => by simp [writeAll, wr, noEof]
  | buf :: bufs => by
    obtain ⟨returned, data, offset, resname, ok, wr'⟩ :=
      sendFrom_accepting allOk w buf.length 0 buf
    have written : w.write send buf = sendFrom send w buf.length 0 buf := by
      simp [Writer.write, wr, noEof]
    obtain ⟨data', returned', offset', resname', ok', wr''⟩ :=
      writeAll_accepting allOk (written ▸ wr'.trans wr) (written ▸ ok.trans noEof) bufs
    simp only [writeAll, written, returned, List.map_cons, List.flatten_cons, List.length_append]
      at data' returned' offset' resname' ok' wr'' ⊢
    refine ⟨by rw [data', data, List.append_assoc], by rw [returned'], by omega,
      resname'.trans resname, ok', wr''⟩

end Send

/-- The writers reached by `Create` and a run of `Write` calls, against the server `send`. -/
def Reachable (send : Nat → SendResult) (w : Writer) : Prop :=
  ∃ opened resourceName name w₀ bufs,
    create opened resourceName name = .ok w₀ ∧ (writeAll send w₀ bufs).1 = w

/-- `Create` returns the initial writer for the size in the resource name. -/
theorem create_ok {opened : Bool} {resourceName name : List UInt8} {w : Writer}
    (created : create opened resourceName name = .ok w) :
    ∃ size, w = Writer.init resourceName name size := by
  unfold create at created
  split at created
  · cases created
  · split at created
    · cases created; exact ⟨_, rfl⟩
    · cases created

theorem Reachable.sound {send : Nat → SendResult} {w : Writer} (reach : Reachable send w) :
    Sound send w := by
  obtain ⟨_, _, _, w₀, bufs, created, rfl⟩ := reach
  obtain ⟨size, rfl⟩ := create_ok created
  exact (Sound.init _ _ size).writeAll bufs

end Siso.Bytestreamio

namespace Siso.Bytestreamio

/-- Against a server that accepts every request, `Close` of a writer that saw no `io.EOF` sends
`FinishWrite` at its offset. -/
theorem close_accepting {send : Nat → SendResult} (allOk : ∀ k, send k = .ok)
    (recv : Option Int)
    {w : Writer} (wr : w.wr = true) (noEof : w.ok = false) :
    (w.close send recv).1.log = w.log ++ [(⟨w.resname, w.offset, true, []⟩, .ok)] := by
  simp only [Writer.close, wr, noEof, allOk, Bool.not_true, Bool.not_false, if_true,
    Bool.false_eq_true, if_false, decide_True]
  split <;> (repeat' split) <;> rfl

/-- Over a log of accepted requests, the bytes accepted are the data sent. -/
theorem acceptedBytes_of_accepted {log : List (WriteRequest × SendResult)}
    (allOk : ∀ e ∈ log, e.2 = .ok) : acceptedBytes log = (dataSent log).length := by
  induction log with
  | nil => rfl
  | cons e log ih =>
    rw [← List.singleton_append, acceptedBytes_append, dataSent_append, List.length_append,
      ih fun e' h => allOk e' (List.mem_cons_of_mem e h)]
    simp [accepted, dataSent, allOk e (List.mem_cons_self e log)]

/-- The contract of `Write` and `Close` against the server `send`, `recv` being what
`CloseAndRecv` returns: the requests are well formed, an accepting server receives the buffers
in order and at their offsets, a failed `Write` reports what was accepted, and a writer that saw
`io.EOF` stops sending. -/
structure WriterContract (send : Nat → SendResult) (recv : Option Int) : Prop where
  /-- Every writer reached by `Create` and `Write` calls is sound: each data request carries
  between one byte and 2 MiB and, as its offset, the data accepted before it. -/
  sound : ∀ w, Reachable send w → Sound send w
  /-- Against a server that accepts every request, the data sent is the buffers written, in
  order, each request's offset is the data sent before it, each `Write` reports its full length,
  and `Close` finishes at the total length written. -/
  accepting : (∀ k, send k = .ok) → ∀ opened resourceName name w bufs,
    create opened resourceName name = .ok w →
    dataSent (writeAll send w bufs).1.log = bufs.flatten ∧
    (∀ k (h : k < (writeAll send w bufs).1.log.length),
      ((writeAll send w bufs).1.log[k]).1.writeOffset =
        (dataSent ((writeAll send w bufs).1.log.take k)).length) ∧
    (writeAll send w bufs).2 = bufs.map (fun buf => (buf.length, none)) ∧
    ((writeAll send w bufs).1.close send recv).1.log =
      (writeAll send w bufs).1.log ++ [(⟨resourceName, bufs.flatten.length, true, []⟩, .ok)]
  /-- A `Write` whose `Send` fails reports the bytes of its buffer that `Send` accepted, and the
  offset is all the data accepted. -/
  failed_write : ∀ w, Reachable send w → ∀ buf e, (w.write send buf).2.2 = some e →
    (w.write send buf).2.1 = acceptedBytes (w.write send buf).1.log - acceptedBytes w.log ∧
    (w.write send buf).1.offset = acceptedBytes (w.write send buf).1.log
  /-- Once a `Send` returned `io.EOF`, every `Write` sends nothing and reports its full length. -/
  after_eof : ∀ w, Reachable send w → eofSeen w.log = true →
    ∀ buf, w.write send buf = (w, buf.length, none)

theorem writer_contract (send : Nat → SendResult) (recv : Option Int) :
    WriterContract send recv where
  sound _ reach := reach.sound
  accepting allOk opened resourceName name w bufs created := by
    obtain ⟨size, rfl⟩ := create_ok created
    obtain ⟨data, returned, offset, resname, ok, wr⟩ := writeAll_accepting allOk
      (w := Writer.init resourceName name size) rfl rfl bufs
    have sound : Sound send (writeAll send (Writer.init resourceName name size) bufs).1 :=
      Reachable.sound ⟨opened, resourceName, name, _, bufs, created, rfl⟩
    have allAccepted : ∀ e ∈ (writeAll send (Writer.init resourceName name size) bufs).1.log,
        e.2 = .ok := by
      intro e mem
      obtain ⟨k, hk, rfl⟩ := List.getElem_of_mem mem
      rw [sound.results k hk, allOk]
    refine ⟨by simpa [Writer.init, dataSent] using data, fun k hk => ?_, returned, ?_⟩
    · rw [sound.offsets k hk, acceptedBytes_of_accepted fun e mem =>
        allAccepted e (List.mem_of_mem_take mem)]
    · rw [close_accepting allOk recv wr ok, offset, resname]
      simp [Writer.init]
  failed_write _ reach _ _ failed := reach.sound.write_failed failed
  after_eof _ reach eof buf := reach.sound.write_after_eof eof buf

end Siso.Bytestreamio
