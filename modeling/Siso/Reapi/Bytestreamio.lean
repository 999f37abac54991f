import Mathlib.Data.List.Basic
import Mathlib.Algebra.Group.Int
import Siso.Go.Filepath

/-!
# `bytestreamio.Reader` and `bytestreamio.Writer`

A `Reader` downloads a blob from a bytestream service: `Read` hands out what is left of the
`Data` of the last `ReadResponse`, and when none is left, `Recv`s the next response and hands
out the start of its `Data`; `Size` is the number of bytes handed out.  The stream is the
sequence of what `Recv` returns, `recv k` for the `k`-th call, and the reader logs it.

A `Writer` uploads a blob to a bytestream service: `Write` cuts each buffer into requests of
at most 2 MiB, each carrying the offset of its data in the blob, and `Close` sends the
`FinishWrite` request and checks the size the server committed.  A `Send` that returns
`io.EOF` means the server already has the blob: the writer sets `ok`, and from then on
`Write` sends nothing and `Close` sends no `FinishWrite`.

The stream is a log of the requests passed to `Send` with what `Send` returned for each; the
server is the sequence of those results, `send k` for the `k`-th call, which covers every
server since the writer is deterministic.  `CloseAndRecv` is one more answer of the server:
the committed size, or `none` for an error.  Offsets, sizes and lengths are `Nat`: an `int64`
offset or size overflows only past `2^63` bytes.
-/

namespace Siso.Bytestreamio

open Go Filepath

/-- What `Recv` returns: a `ReadResponse` with its `Data`, which may be empty, or an error,
`io.EOF` at the end of the stream. -/
inductive RecvResult
  | data (data : List UInt8)
  | error
  deriving DecidableEq, Repr

/-- `Reader`; `rd` says whether it holds a stream, as a `Reader` from `Open` does. -/
structure Reader where
  rd : Bool
  buf : List UInt8
  /-- `size`, which `Size` returns. -/
  size : Nat
  /-- What `Recv` returned so far, in order. -/
  log : List RecvResult
  deriving DecidableEq, Repr

/-- The errors of `Read`. -/
inductive ReadError
  /-- `failed to read: bad Reader`. -/
  | badReader
  /-- The error `Recv` returned. -/
  | recv
  deriving DecidableEq, Repr

/-- The reader `Open` returns when `c.Read` opens a stream. -/
def Reader.init : Reader := ⟨true, [], 0, []⟩

/-- `n := copy(buf, data)` for a `buf` of length `len`, then `r.buf = data[n:]` and
`r.size += int64(n)`: the reader, and the bytes copied to `buf[:n]`. -/
def Reader.copyOut (r : Reader) (data : List UInt8) (len : Nat) : Reader × List UInt8 :=
  let n := min len data.length
  ({ r with buf := data.drop n, size := r.size + n }, data.take n)

/-- `Reader.Read(buf)` for a `buf` of length `len`, against the stream `recv`: the reader after
it, the bytes it copies to `buf[:n]`, `n` being their number, and its error. -/
def Reader.read (recv : Nat → RecvResult) (r : Reader) (len : Nat) :
    Reader × List UInt8 × Option ReadError :=
  if !r.rd then (r, [], some .badReader)
  else if 0 < r.buf.length then
    let copied := r.copyOut r.buf len
    (copied.1, copied.2, none)
  else
    let resp := recv r.log.length
    let r := { r with log := r.log ++ [resp] }
    match resp with
    | .error => (r, [], some .recv)
    | .data data =>
      let copied := r.copyOut data len
      (copied.1, copied.2, none)

/-- `Read` into buffers of the lengths `lens` in turn: the reader after them, and what each
`Read` returned. -/
def readAll (recv : Nat → RecvResult) :
    Reader → List Nat → Reader × List (List UInt8 × Option ReadError)
  | r, [] => (r, [])
  | r, len :: lens =>
    let res := r.read recv len
    let rest := readAll recv res.1 lens
    (rest.1, res.2 :: rest.2)

/-- What `Send` returns: `nil`, an error wrapping `io.EOF`, or another error. -/
inductive SendResult
  | ok
  | eof
  | error
  deriving DecidableEq, Repr

/-- The fields of a `bytestream.WriteRequest` that the writer sets. -/
structure WriteRequest where
  resourceName : List UInt8
  writeOffset : Nat
  finishWrite : Bool
  data : List UInt8
  deriving DecidableEq, Repr

/-- `Writer`; `wr` says whether it holds a stream, as a `Writer` from `Create` does. -/
structure Writer where
  name : List UInt8
  resname : List UInt8
  size : Int
  wr : Bool
  offset : Nat
  ok : Bool
  /-- The requests passed to `Send` so far, with what `Send` returned for each. -/
  log : List (WriteRequest × SendResult)
  deriving DecidableEq, Repr

/-- The errors of `Create`. -/
inductive CreateError
  /-- `bad size in resource name %q`. -/
  | badSize (resourceName : List UInt8)
  /-- The error of `c.Write(ctx)`. -/
  | write
  deriving DecidableEq, Repr

/-- The errors of `Write`. -/
inductive WriteError
  /-- `failed to write: bad Writer`. -/
  | badWriter
  /-- `failed to send for %s: %w`. -/
  | send (name : List UInt8)
  deriving DecidableEq, Repr

/-- The errors of `Close`. -/
inductive CloseError
  /-- `bad Writer`. -/
  | badWriter
  /-- `failed to finish for %s: %w`. -/
  | finish (name : List UInt8)
  /-- `failed to close for %s: %w`. -/
  | close (name : List UInt8)
  /-- `BadCommittedSizeError`. -/
  | badCommittedSize (committedSize : Int) (offset : Nat) (size : Int) (name : List UInt8)
  deriving DecidableEq, Repr

/-- The decimal digits of `strconv.ParseInt(s, 10, 64)`, without sign. -/
def digitsValue (digits : List UInt8) : Nat :=
  digits.foldl (fun acc c => acc * 10 + (c.toNat - 48)) 0

/-- `strconv.ParseInt(s, 10, 64)`: an optional sign and decimal digits, in the range of
`int64`; `none` is its error. -/
def parseInt (s : List UInt8) : Option Int :=
  let (neg, digits) := match s with
    | 43 :: ds => (false, ds)
    | 45 :: ds => (true, ds)
    | ds => (false, ds)
  if digits = [] ∨ digits.any (fun c => c < 48 ∨ 57 < c) then none
  else
    let v : Int := if neg then -(digitsValue digits : Int) else digitsValue digits
    if v < -2 ^ 63 ∨ 2 ^ 63 - 1 < v then none else some v

/-- The writer `Create` returns. -/
def Writer.init (resname name : List UInt8) (size : Int) : Writer :=
  ⟨name, resname, size, true, 0, false, []⟩

/-- `Create(ctx, c, resourceName, name)`; `opened` says whether `c.Write(ctx)` opened a
stream. -/
def create (opened : Bool) (resourceName name : List UInt8) : Except CreateError Writer :=
  match parseInt (base resourceName) with
  | none => .error (.badSize resourceName)
  | some size => if opened then .ok (Writer.init resourceName name size) else .error .write

/-- `streamBufSize`: 2 MiB. -/
def streamBufSize : Nat := 2 * 1024 * 1024

/-- The loop of `Write` from `p`, `rest` being `buf[p:]` and `n` the length of `buf`. -/
def sendFrom (send : Nat → SendResult) (w : Writer) (n p : Nat) (rest : List UInt8) :
    Writer × Nat × Option WriteError :=
  match rest with
  | [] => (w, n, none)
  | b :: bs =>
    let bufsize := min (b :: bs).length streamBufSize
    let req : WriteRequest := ⟨w.resname, w.offset, false, (b :: bs).take bufsize⟩
    let result := send w.log.length
    let w := { w with log := w.log ++ [(req, result)] }
    match result with
    | .eof => ({ w with ok := true }, n, none)
    | .error => (w, p, some (.send w.name))
    | .ok => sendFrom send { w with offset := w.offset + bufsize } n (p + bufsize)
      ((b :: bs).drop bufsize)
termination_by rest.length
decreasing_by
  simp only [List.length_drop, List.length_cons]
  have : 0 < streamBufSize := by decide
  omega

/-- `Writer.Write(buf)`. -/
def Writer.write (send : Nat → SendResult) (w : Writer) (buf : List UInt8) :
    Writer × Nat × Option WriteError :=
  if !w.wr then (w, 0, some .badWriter)
  else if w.ok then (w, buf.length, none)
  else sendFrom send w buf.length 0 buf

/-- `Writer.Close()`, `recv` being what `CloseAndRecv` returns: the committed size, or `none`
for an error. -/
def Writer.close (send : Nat → SendResult) (recv : Option Int) (w : Writer) :
    Writer × Option CloseError :=
  if !w.wr then (w, some .badWriter)
  else
    let finished : Writer × Bool :=
      if !w.ok then
        let result := send w.log.length
        ({ w with log := w.log ++ [(⟨w.resname, w.offset, true, []⟩, result)] }, result = .ok)
      else (w, true)
    let w := finished.1
    if !finished.2 then (w, some (.finish w.name))
    else
      match recv with
      | none => (w, some (.close w.name))
      | some committed =>
        if committed = w.size then (w, none)
        else if committed = -1 ∧ w.ok ∧ (str "compressed-blobs").IsInfix w.resname then
          (w, none)
        else (w, some (.badCommittedSize committed w.offset w.size w.name))

/-- `Write` each buffer in turn: the writer after them, and what each `Write` returned. -/
def writeAll (send : Nat → SendResult) : Writer → List (List UInt8) →
    Writer × List (Nat × Option WriteError)
  | w, [] => (w, [])
  | w, buf :: bufs =>
    let r := w.write send buf
    let rest := writeAll send r.1 bufs
    (rest.1, r.2 :: rest.2)

end Siso.Bytestreamio
