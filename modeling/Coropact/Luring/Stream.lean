/-
The operations of an io_uring stream and its close protocol (`src/luring/stream.cc`, `LUringOp::Complete` of
`include/coropact/luring/op.h`, `LUringLoop::HandleCqe` of `src/luring/loop.cc`).

A read or write occupies the stream's slot of its kind and submits its entry; a read with a timeout submits two, and
keeps the slot until both have completed. `Close` closes the descriptor at once if both slots are empty. Otherwise it
submits a cancel request and waits: when the cancel request has completed and both slots are empty, which any of the
completions may bring about, the descriptor is closed and `Close` is resumed.

An awaiter is named by its kind and a number, and used once. `outstanding` holds the entries that the loop has taken and
that have not completed: what the loop answers to a `SubmitOp` is an argument of the event, and any outstanding entry
may complete next. The log has what happens outside the stream: entries submitted, results given at once, coroutines
scheduled with the result they will return, and the close of the descriptor.
-/
import Coropact.Core.Errno
import Coropact.Core.Machine

namespace Coropact.Luring

open Coropact.Machine Function

/-! ## Model -/

inductive ReadAwaiter where
  | readSome (id : ℕ)
  | readSomeFor (id : ℕ)
deriving DecidableEq, Repr

inductive Awaiter where
  | read (a : ReadAwaiter)
  | write (id : ℕ)
  | close (id : ℕ)
deriving DecidableEq, Repr

/-- an entry; a read with a timeout has two -/
inductive StreamOp where
  | receive (a : ReadAwaiter)
  | timeout (id : ℕ)
  | send (id : ℕ)
  | cancel (id : ℕ)
deriving DecidableEq, Repr

/-- the awaiter that holds the `LUringOp` -/
def StreamOp.awaiter : StreamOp → Awaiter
  | .receive a => .read a
  | .timeout id => .read (.readSomeFor id)
  | .send id => .write id
  | .cancel id => .close id

structure LUringOp where
  /-- `resume_work.handle` -/
  handle : Option Awaiter := none
  result : ℤ := 0
  completed : Bool := false
deriving DecidableEq, Repr

structure AwaiterFlags where
  readDone : Bool := false
  timeoutDone : Bool := false
  cancelCompleted : Bool := false
  completed : Bool := false
deriving DecidableEq, Repr

/-- an errno, a number of bytes, or nothing for a `Close` -/
abbrev StreamResult := Except ℕ (Option ℕ)

inductive StreamAction where
  | submit (op : StreamOp)
  /-- `await_suspend` returned false with this result -/
  | immediate (a : Awaiter) (result : StreamResult)
  /-- the coroutine is scheduled; `await_resume` will return this -/
  | resume (a : Awaiter) (result : StreamResult)
  | closeFd
deriving DecidableEq

structure LUringStream where
  closed : Bool := false
  /-- `fd_ >= 0` -/
  fdOpen : Bool := true
  pendingRead : Option ReadAwaiter := none
  pendingWrite : Option ℕ := none
  pendingClose : Option ℕ := none
  ops : StreamOp → LUringOp := fun _ => {}
  flags : Awaiter → AwaiterFlags := fun _ => {}
  started : List Awaiter := []
  outstanding : List StreamOp := []
  log : List StreamAction := []

def LUringStream.act (s : LUringStream) (a : StreamAction) : LUringStream := { s with log := s.log ++ [a] }

def LUringStream.submit (s : LUringStream) (op : StreamOp) : LUringStream :=
  { s with outstanding := op :: s.outstanding, log := s.log ++ [.submit op] }

def LUringStream.setFlags (s : LUringStream) (a : Awaiter) (flags : AwaiterFlags) : LUringStream :=
  { s with flags := update s.flags a flags }

/-- the checks with which every read and write starts, and the result if one fails -/
def LUringStream.refusal (s : LUringStream) (empty busy : Bool) : Option StreamResult :=
  if s.closed ∨ s.fdOpen = false then some (.error EBADF)
  else if empty then some (.ok (some 0))
  else if busy then some (.error EBUSY)
  else none

def LUringStream.readSome (s : LUringStream) (id : ℕ) (empty : Bool) (submitted : Except ℕ Unit) : LUringStream :=
  match s.refusal empty s.pendingRead.isSome with
  | some result => s.act (.immediate (.read (.readSome id)) result)
  | none =>
    let s := { s with
      pendingRead := some (.readSome id)
      ops := update s.ops (.receive (.readSome id)) { handle := some (.read (.readSome id)) } }
    match submitted with
    | .error errno =>
        ({ s with pendingRead := none } : LUringStream).act (.immediate (.read (.readSome id)) (.error errno))
    | .ok _ => s.submit (.receive (.readSome id))

def LUringStream.readSomeFor (s : LUringStream) (id : ℕ) (empty : Bool) (submitted timeoutSubmitted : Except ℕ Unit) :
    LUringStream :=
  match s.refusal empty s.pendingRead.isSome with
  | some result => s.act (.immediate (.read (.readSomeFor id)) result)
  | none =>
    let s := { s with pendingRead := some (.readSomeFor id) }
    match submitted with
    | .error errno =>
      ({ s with pendingRead := none } : LUringStream).act (.immediate (.read (.readSomeFor id)) (.error errno))
    | .ok _ =>
      let s := s.submit (.receive (.readSomeFor id))
      match timeoutSubmitted with
      | .error _ =>
        s.setFlags (.read (.readSomeFor id)) { s.flags (.read (.readSomeFor id)) with timeoutDone := true }
      | .ok _ => s.submit (.timeout id)

def LUringStream.writeSome (s : LUringStream) (id : ℕ) (empty : Bool) (submitted : Except ℕ Unit) : LUringStream :=
  match s.refusal empty s.pendingWrite.isSome with
  | some result => s.act (.immediate (.write id) result)
  | none =>
    let s := { s with
      pendingWrite := some id
      ops := update s.ops (.send id) { handle := some (.write id) } }
    match submitted with
    | .error errno => ({ s with pendingWrite := none } : LUringStream).act (.immediate (.write id) (.error errno))
    | .ok _ => s.submit (.send id)

/-- `CloseFd`; `answer` is what `::close` gives -/
def LUringStream.closeFd (s : LUringStream) (answer : Except ℕ Unit) : LUringStream × StreamResult :=
  if s.fdOpen then ({ s with fdOpen := false }.act .closeFd, answer.map fun _ => none) else (s, .ok none)

/-- `CloseAwaiter::await_suspend` -/
def LUringStream.close (s : LUringStream) (id : ℕ) (submitted answer : Except ℕ Unit) : LUringStream :=
  if s.pendingClose.isSome then s.act (.immediate (.close id) (.error EBUSY))
  else if s.closed ∨ s.fdOpen = false then s.act (.immediate (.close id) (.ok none))
  else
    let s := { s with closed := true }
    if s.pendingRead = none ∧ s.pendingWrite = none then
      let (s, result) := s.closeFd answer
      s.act (.immediate (.close id) result)
    else
      let s := { s with pendingClose := some id }
      match submitted with
      | .error errno =>
        ({ s with pendingClose := none, closed := false } : LUringStream).act (.immediate (.close id) (.error errno))
      | .ok _ => s.submit (.cancel id)

/-- `CloseAwaiter::TryComplete`; its `stream_` is null once it has completed -/
def LUringStream.tryComplete (s : LUringStream) (id : ℕ) (answer : Except ℕ Unit) : LUringStream :=
  let flags := s.flags (.close id)
  if flags.completed ∨ flags.cancelCompleted = false then s
  else if s.pendingRead.isSome ∨ s.pendingWrite.isSome then s
  else
    let s := { s.setFlags (.close id) { flags with completed := true } with pendingClose := none }
    let (s, result) := s.closeFd answer
    s.act (.resume (.close id) result)

def LUringStream.notifyCloseProgress (s : LUringStream) (answer : Except ℕ Unit) : LUringStream :=
  match s.pendingClose with
  | none => s
  | some id => s.tryComplete id answer

/-- `FinishIfReady` of a read with a timeout, with the entry whose completion is being handled -/
def LUringStream.finishIfReady (s : LUringStream) (id : ℕ) (current : StreamOp) (answer : Except ℕ Unit) :
    LUringStream :=
  let flags := s.flags (.read (.readSomeFor id))
  if flags.readDone = false ∨ flags.timeoutDone = false then s
  else
    let s := if s.pendingRead = some (.readSomeFor id) then
      ({ s with pendingRead := none } : LUringStream).notifyCloseProgress answer else s
    { s with
      ops := update s.ops current { s.ops current with handle := some (.read (.readSomeFor id)) } }

/-- `on_complete` of the entry -/
def LUringStream.onComplete (s : LUringStream) (op : StreamOp) (answer : Except ℕ Unit) : LUringStream :=
  match op with
  | .receive (.readSome id) =>
    if s.pendingRead = some (.readSome id) then
      ({ s with pendingRead := none } : LUringStream).notifyCloseProgress answer
    else s
  | .receive (.readSomeFor id) =>
    (s.setFlags (.read (.readSomeFor id)) { s.flags (.read (.readSomeFor id)) with readDone := true }).finishIfReady id
      (.receive (.readSomeFor id)) answer
  | .timeout id =>
    (s.setFlags (.read (.readSomeFor id)) { s.flags (.read (.readSomeFor id)) with timeoutDone := true }).finishIfReady
      id
      (.timeout id) answer
  | .send id =>
    if s.pendingWrite = some id then ({ s with pendingWrite := none } : LUringStream).notifyCloseProgress answer else s
  | .cancel id =>
    (s.setFlags (.close id) { s.flags (.close id) with cancelCompleted := true }).tryComplete id answer

def toSizeResult (result : ℤ) : StreamResult :=
  if result < 0 then .error result.natAbs else .ok (some result.toNat)

/-- `await_resume` of an operation that was suspended; that of a `Close` returns what `TryComplete` stored -/
def LUringStream.awaitResume (s : LUringStream) : Awaiter → StreamResult
  | .read (.readSome id) => toSizeResult (s.ops (.receive (.readSome id))).result
  | .read (.readSomeFor id) =>
    let received := (s.ops (.receive (.readSomeFor id))).result
    if 0 ≤ received then .ok (some received.toNat)
    else if (s.ops (.timeout id)).result = -ETIME then .error ETIMEDOUT
    else toSizeResult received
  | .write id => toSizeResult (s.ops (.send id)).result
  | .close _ => .ok none

/-- `ScheduleCompletionAt`, if there is a handle -/
def LUringStream.schedule (s : LUringStream) : Option Awaiter → LUringStream
  | some a => s.act (.resume a (s.awaitResume a))
  | none => s

/-- `HandleCqe` with `LUringOp::Complete` -/
def LUringStream.handleCqe (s : LUringStream) (op : StreamOp) (res : ℤ) (answer : Except ℕ Unit) : LUringStream :=
  if (s.ops op).completed then s
  else
    let s := { s with ops := update s.ops op { s.ops op with result := res, completed := true } }
    let s := s.onComplete op answer
    s.schedule (s.ops op).handle

/-- a call, with whether the buffer is empty and what `SubmitOp` and `::close` answer, or the completion of an entry -/
inductive StreamEvent where
  | readSome (id : ℕ) (empty : Bool) (submitted : Except ℕ Unit)
  | readSomeFor (id : ℕ) (empty : Bool) (submitted timeoutSubmitted : Except ℕ Unit)
  | writeSome (id : ℕ) (empty : Bool) (submitted : Except ℕ Unit)
  | close (id : ℕ) (submitted answer : Except ℕ Unit)
  | complete (op : StreamOp) (res : ℤ) (answer : Except ℕ Unit)
deriving DecidableEq

/-- a call is made by a new awaiter -/
def LUringStream.start (s : LUringStream) (a : Awaiter) : Option LUringStream :=
  if a ∈ s.started then none else some { s with started := a :: s.started }

def streamStep (s : LUringStream) : StreamEvent → Option LUringStream
  | .readSome id empty submitted => (s.start (.read (.readSome id))).map (·.readSome id empty submitted)
  | .readSomeFor id empty submitted timeoutSubmitted =>
    (s.start (.read (.readSomeFor id))).map (·.readSomeFor id empty submitted timeoutSubmitted)
  | .writeSome id empty submitted => (s.start (.write id)).map (·.writeSome id empty submitted)
  | .close id submitted answer => (s.start (.close id)).map (·.close id submitted answer)
  | .complete op res answer =>
    if op ∈ s.outstanding then
      some (({ s with outstanding := s.outstanding.erase op } : LUringStream).handleCqe op res answer)
    else none

/-! ## Statements -/

def StreamAction.resumes (a : Awaiter) : StreamAction → Bool
  | .resume b _ => b = a
  | _ => false

/-- how often the coroutine of `a` was scheduled -/
def resumptions (a : Awaiter) (log : List StreamAction) : ℕ := log.countP (·.resumes a)

def closeFds (log : List StreamAction) : ℕ := log.count .closeFd

def submits (log : List StreamAction) : List StreamOp :=
  log.filterMap fun x => match x with | .submit op => some op | _ => none

/-- a `Close` that finds an operation pending and cannot submit its cancel request -/
def LUringStream.CancelFails (s : LUringStream) (submitted : Except ℕ Unit) : Prop :=
  s.closed = false ∧ (s.pendingRead.isSome ∨ s.pendingWrite.isSome) ∧ ∃ errno, submitted = .error errno

/-- what is to hold of a run that ends in `s` -/
structure CloseProtocol (tr : List StreamEvent) (s : LUringStream) : Prop where
  /-- an operation that was submitted is resumed once, when its last entry completes -/
  operations : ∀ op, .submit op ∈ s.log → (∀ id, op ≠ .cancel id) →
    resumptions op.awaiter s.log = if ∃ op' ∈ s.outstanding, op'.awaiter = op.awaiter then 0 else 1
  /-- a `Close` that waits is resumed once, when its cancel request has completed and both slots are empty -/
  closes : ∀ id, .submit (.cancel id) ∈ s.log → resumptions (.close id) s.log =
    if .cancel id ∈ s.outstanding ∨ s.pendingRead.isSome ∨ s.pendingWrite.isSome then 0 else 1
  /-- what did not suspend is not resumed -/
  others : ∀ a, (∀ op : StreamOp, op.awaiter = a → .submit op ∉ s.log) → resumptions a s.log = 0
  /-- the descriptor is closed once, by the `Close` that succeeds -/
  fdOnce : closeFds s.log ≤ 1 ∧
    ∀ id, (.immediate (.close id) (.ok none) ∈ s.log ∨ ∃ r, .resume (.close id) r ∈ s.log) → closeFds s.log = 1
  /-- once it is closed, nothing is outstanding -/
  fdAlone : 0 < closeFds s.log → s.outstanding = []
  /-- after a `Close` whose cancel request did not fail, nothing is submitted -/
  afterClose : ∀ l id submitted answer r u v, tr = l ++ .close id submitted answer :: r →
    run streamStep {} l = some u → ¬u.CancelFails submitted →
    run streamStep {} (l ++ [.close id submitted answer]) = some v → submits s.log = submits v.log
  /-- a `Close` whose cancel request failed leaves the stream as it was -/
  reopened : ∀ l id errno answer r u, tr = l ++ .close id (.error errno) answer :: r →
    run streamStep {} l = some u → u.CancelFails (.error errno) →
    run streamStep {} (l ++ [.close id (.error errno) answer]) = some { u with
      started := .close id :: u.started, log := u.log ++ [.immediate (.close id) (.error errno)] }

end Coropact.Luring
