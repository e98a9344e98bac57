/-
The operations of a reactor stream (`src/net/reactor_stream.cc`).

`ReadSome`, `ReadSomeFor` and `WriteSome` try the system call at once; if it would block, the operation waits in the
stream's pending slot for its kind, with the channel's interest enabled and, for a read with a timeout, a timer of the
loop. A pending operation is completed by a read or write event whose attempt does not block, by a hang-up, by an error,
by its timer or by `Close`; completing empties the slot, cancels the timer and schedules the coroutine, which runs after
the dispatch. The variants that read into and write from a buffer do the same; what they do to the buffer is not
modelled, and a reservation that fails is an attempt that fails.

An operation is named by a number (its awaiter object), used once. The log has what each operation obtained: a result at
once, or a result with a `Schedule`. `attempt` is what the system call gave. Timers are those of the loop that are
active: one that fires is removed and its callback runs; one that is cancelled is removed.
-/
import Coropact.Core.Machine
import Coropact.Net.Channel

namespace Coropact.Net

open Coropact.Machine List Function

/-! ## Model -/

/-- what a read or write attempt gave: it would block, or a byte count or an errno -/
inductive IoAttempt where
  | pending
  | done (result : Except ℕ ℕ)
deriving DecidableEq, Repr

inductive StreamAction where
  /-- `await_suspend` returned false with this result -/
  | immediate (op : ℕ) (result : Except ℕ ℕ)
  /-- `Complete` set this result and scheduled the coroutine -/
  | schedule (op : ℕ) (result : Except ℕ ℕ)
deriving DecidableEq, Repr

structure ReactorStream where
  closed : Bool := false
  /-- `socket_.fd() >= 0` -/
  fdOpen : Bool := true
  pendingRead : Option ℕ := none
  pendingWrite : Option ℕ := none
  -- the channel: interest, and whether the loop has it
  reading : Bool := false
  writing : Bool := false
  hasChannel : Bool := false
  started : List ℕ := []
  /-- the read awaiters whose pointer to the stream has been reset -/
  detached : List ℕ := []
  timer : ℕ → Option ℕ := fun _ => none
  /-- the active timers of the loop: number, and the read awaiter of the callback -/
  timers : List (ℕ × ℕ) := []
  nextSequence : ℕ := 0
  log : List StreamAction := []

/-- `IsReading`, `DisableReading` and the exchange of the slot, then `Complete` of the awaiter -/
def ReactorStream.completeRead (result : Except ℕ ℕ) (s : ReactorStream) : ReactorStream :=
  match s.pendingRead with
  | none => s
  | some op =>
    { s with
      pendingRead := none
      reading := false
      timers := match s.timer op with
        | some sequence => s.timers.filter fun t => t.1 ≠ sequence
        | none => s.timers
      timer := update s.timer op none
      detached := op :: s.detached
      log := s.log ++ [.schedule op result] }

def ReactorStream.completeWrite (result : Except ℕ ℕ) (s : ReactorStream) : ReactorStream :=
  match s.pendingWrite with
  | none => s
  | some op => { s with pendingWrite := none, writing := false, log := s.log ++ [.schedule op result] }

def ReactorStream.handleRead (attempt : IoAttempt) (s : ReactorStream) : ReactorStream :=
  match s.pendingRead, attempt with
  | some _, .done result => s.completeRead result
  | _, _ => s

def ReactorStream.handleWrite (attempt : IoAttempt) (s : ReactorStream) : ReactorStream :=
  match s.pendingWrite, attempt with
  | some _, .done result => s.completeWrite result
  | _, _ => s

def ReactorStream.handleClose (s : ReactorStream) : ReactorStream :=
  (s.completeRead (.ok 0)).completeWrite (.error EPIPE)

/-- `getsockopt(SO_ERROR)` failed with an errno, or gave a value -/
def socketError : Except ℕ ℕ → ℕ
  | .error errno => errno
  | .ok 0 => EIO
  | .ok (err + 1) => err + 1

def ReactorStream.handleError (soError : Except ℕ ℕ) (s : ReactorStream) : ReactorStream :=
  (s.completeRead (.error (socketError soError))).completeWrite (.error (socketError soError))

/-- `BindChannelCallbacks`; the arguments are what the system calls of one dispatch give -/
def streamChannel (readAttempt writeAttempt : IoAttempt) (soError : Except ℕ ℕ) : Channel ReactorStream where
  readCallback := some fun s => s.handleRead readAttempt
  writeCallback := some fun s => s.handleWrite writeAttempt
  closeCallback := some fun s => s.handleClose
  errorCallback := some fun s => s.handleError soError

inductive StreamEvent where
  /-- `ReadSome`, and `ReadSomeFor` with a positive timeout -/
  | readSome (op : ℕ) (timeout : Bool) (attempt : IoAttempt)
  | writeSome (op : ℕ) (attempt : IoAttempt)
  | close
  /-- the poller reports events for the stream's channel -/
  | dispatch (revents : Events) (readAttempt writeAttempt : IoAttempt) (soError : Except ℕ ℕ)
  | timer (sequence : ℕ)
deriving DecidableEq, Repr

def ReactorStream.immediate (op : ℕ) (result : Except ℕ ℕ) (s : ReactorStream) : ReactorStream :=
  { s with log := s.log ++ [.immediate op result] }

/-- `await_suspend` of a read -/
def ReactorStream.suspendRead (op : ℕ) (timeout : Bool) (attempt : IoAttempt) (s : ReactorStream) : ReactorStream :=
  if s.closed ∨ s.fdOpen = false then s.immediate op (.error EBADF)
  else match attempt with
    | .done result => s.immediate op result
    | .pending =>
      let s := { s with pendingRead := some op, reading := true, hasChannel := true }
      if timeout then
        { s with
          timer := update s.timer op (some s.nextSequence)
          timers := s.timers ++ [(s.nextSequence, op)]
          nextSequence := s.nextSequence + 1 }
      else s

/-- `await_suspend` of a write -/
def ReactorStream.suspendWrite (op : ℕ) (attempt : IoAttempt) (s : ReactorStream) : ReactorStream :=
  if s.closed ∨ s.fdOpen = false then s.immediate op (.error EBADF)
  else match attempt with
    | .done result => s.immediate op result
    | .pending => { s with pendingWrite := some op, writing := true, hasChannel := true }

/-- `DetachChannel` -/
def ReactorStream.detachChannel (s : ReactorStream) : ReactorStream :=
  { s with reading := false, writing := false, hasChannel := false }

def ReactorStream.close (s : ReactorStream) : ReactorStream :=
  if s.closed then s
  else
    let s := ({ s with closed := true } : ReactorStream)
    let s := s.completeRead (.error ECANCELED)
    let s := s.completeWrite (.error ECANCELED)
    { s.detachChannel with fdOpen := false }

/-- the callback of a read's timer -/
def ReactorStream.onTimer (op : ℕ) (s : ReactorStream) : ReactorStream :=
  if op ∉ s.detached ∧ s.pendingRead = some op then s.completeRead (.error ETIMEDOUT) else s

/-- an operation is started by a new awaiter, a read only while no read is pending, a write only while no write is -/
def streamStep (s : ReactorStream) : StreamEvent → Option ReactorStream
  | .readSome op timeout attempt =>
    if op ∉ s.started ∧ s.pendingRead = none then
      some (({ s with started := op :: s.started } : ReactorStream).suspendRead op timeout attempt)
    else none
  | .writeSome op attempt =>
    if op ∉ s.started ∧ s.pendingWrite = none then
      some (({ s with started := op :: s.started } : ReactorStream).suspendWrite op attempt)
    else none
  | .close => some s.close
  | .dispatch revents readAttempt writeAttempt soError =>
    some ((streamChannel readAttempt writeAttempt soError).handleEventWithGuard revents s)
  | .timer sequence =>
    match s.timers.find? (fun t => t.1 = sequence) with
    | some t => some (({ s with timers := s.timers.filter fun t => t.1 ≠ sequence } : ReactorStream).onTimer t.2)
    | none => none

/-! ## Statements -/

def StreamAction.op : StreamAction → ℕ
  | .immediate op _ | .schedule op _ => op

/-- how often `op` obtained a result and was continued for it -/
def outcomes (op : ℕ) (log : List StreamAction) : ℕ := log.countP fun a => a.op = op

def ReactorStream.isPending (s : ReactorStream) (op : ℕ) : Prop := s.pendingRead = some op ∨ s.pendingWrite = some op

def StreamEvent.starts : StreamEvent → Option ℕ
  | .readSome op _ _ | .writeSome op _ => some op
  | _ => none

structure CompletesOnce (tr : List StreamEvent) (s : ReactorStream) : Prop where
  atMostOnce : ∀ op, outcomes op s.log ≤ 1
  /-- an operation without a result is pending; the channel then has the interest it waits for -/
  once : ∀ l e r op, tr = l ++ e :: r → e.starts = some op → outcomes op s.log = 1 ∨
    outcomes op s.log = 0 ∧ (s.pendingRead = some op ∧ s.reading = true ∨ s.pendingWrite = some op ∧ s.writing = true)
  noneLeft : .close ∈ tr → ∀ op, ¬s.isPending op
  /-- an operation that is pending when `Close` runs gets ECANCELED -/
  cancelled : ∀ l r u op, tr = l ++ .close :: r → run streamStep {} l = some u → u.isPending op →
    .schedule op (.error ECANCELED) ∈ s.log
  /-- an operation started after `Close` gets EBADF at once -/
  afterClose : ∀ l e r op, tr = l ++ e :: r → .close ∈ l → e.starts = some op → .immediate op (.error EBADF) ∈ s.log
  /-- a timer that fires is that of a pending read without a result -/
  timers : ∀ l sequence r u, tr = l ++ .timer sequence :: r → run streamStep {} l = some u →
    ∃ op, u.timers.find? (fun t => t.1 = sequence) = some (sequence, op) ∧ u.pendingRead = some op ∧
      outcomes op u.log = 0

/-! ## The invariant -/

structure StreamInv (s : ReactorStream) : Prop where
  pendingRead : ∀ op, s.pendingRead = some op → op ∈ s.started ∧ outcomes op s.log = 0 ∧ s.reading = true ∧
    op ∉ s.detached
  pendingWrite : ∀ op, s.pendingWrite = some op → op ∈ s.started ∧ outcomes op s.log = 0 ∧ s.writing = true
  distinct : ∀ op, s.pendingRead = some op → s.pendingWrite ≠ some op
  finished : ∀ op ∈ s.started, ¬s.isPending op → outcomes op s.log = 1
  fresh : ∀ op ∉ s.started, outcomes op s.log = 0
  detached : ∀ op ∈ s.detached, op ∈ s.started
  timers : ∀ t ∈ s.timers, s.pendingRead = some t.2 ∧ s.timer t.2 = some t.1

structure CloseInv (s : ReactorStream) : Prop where
  fd : s.fdOpen = !s.closed
  slots : s.closed = true → s.pendingRead = none ∧ s.pendingWrite = none

section Invariant

variable {s t : ReactorStream} {op : ℕ} {result : Except ℕ ℕ}

theorem outcomes_append (op : ℕ) (log : List StreamAction) (a : StreamAction) :
    outcomes op (log ++ [a]) = outcomes op log + if a.op = op then 1 else 0 := by
  simp [outcomes, countP_append, countP_cons]

theorem completeRead_none (h : s.pendingRead = none) : s.completeRead result = s := by
  simp [ReactorStream.completeRead, h]

theorem completeWrite_none (h : s.pendingWrite = none) : s.completeWrite result = s := by
  simp [ReactorStream.completeWrite, h]

theorem outcomes_other {a : StreamAction} {op : ℕ} (h : op ≠ a.op) (log : List StreamAction) :
    outcomes op (log ++ [a]) = outcomes op log := by
  rw [outcomes_append, if_neg (Ne.symm h), add_zero]

theorem outcomes_self (a : StreamAction) (log : List StreamAction) :
    outcomes a.op (log ++ [a]) = outcomes a.op log + 1 := by
  rw [outcomes_append, if_pos rfl]

theorem StreamInv.of_isPending (inv : StreamInv s) (h : s.isPending op) : op ∈ s.started ∧ outcomes op s.log = 0 := by
  rcases h with hread | hwrite
  · obtain ⟨hs, hz, -, -⟩ := inv.pendingRead op hread
    exact ⟨hs, hz⟩
  · obtain ⟨hs, hz, -⟩ := inv.pendingWrite op hwrite
    exact ⟨hs, hz⟩

theorem StreamInv.finished_schedule (inv : StreamInv s) (hop : s.isPending op)
    (hothers : ∀ op', op' ≠ op → s.isPending op' → t.isPending op') {op' : ℕ} (hs : op' ∈ s.started)
    (hnot : ¬t.isPending op') : outcomes op' (s.log ++ [.schedule op result]) = 1 := by
  by_cases hne : op' = op
  · subst hne
    exact (outcomes_self (.schedule op' result) s.log).trans (by rw [StreamAction.op, (inv.of_isPending hop).2])
  · rw [outcomes_other hne]
    exact inv.finished op' hs fun hpending => hnot (hothers op' hne hpending)

theorem StreamInv.finished_pend (inv : StreamInv s) (hop : t.isPending op)
    (hothers : ∀ op', s.isPending op' → t.isPending op') {op' : ℕ} (hs : op' ∈ op :: s.started)
    (hnot : ¬t.isPending op') : outcomes op' s.log = 1 := by
  rcases mem_cons.1 hs with rfl | hold
  · exact absurd hop hnot
  · exact inv.finished op' hold fun hpending => hnot (hothers op' hpending)

/-- **Completing the pending read keeps the invariant.** Its timer is the only active one, and is cancelled with it. -/
theorem completeRead_inv (inv : StreamInv s) : StreamInv (s.completeRead result) := by
  cases hread : s.pendingRead with
  | none => rwa [completeRead_none hread]
  | some op =>
    have hstarted : op ∈ s.started := (inv.pendingRead op hread).1
    have hother : ∀ op', op' ≠ op → outcomes op' (s.log ++ [.schedule op result]) = outcomes op' s.log := fun op' hne =>
      outcomes_other hne s.log
    simp only [ReactorStream.completeRead, hread]
    constructor
    · intro op' hop'
      cases hop'
    · intro op' hop'
      obtain ⟨hs, hz, hw⟩ := inv.pendingWrite op' hop'
      have hne : op' ≠ op := fun heq => inv.distinct op hread (heq ▸ hop')
      exact ⟨hs, (hother op' hne).trans hz, hw⟩
    · intro op' hop'
      cases hop'
    · intro op' hs hnot
      refine inv.finished_schedule (.inl hread) (fun op' hne hpending => ?_) hs hnot
      rcases hpending with hr | hw
      · exact absurd (Option.some.inj (hread.symm.trans hr)).symm hne
      · exact .inr hw
    · intro op' hs
      rw [hother op' fun heq => hs (heq ▸ hstarted)]
      exact inv.fresh op' hs
    · intro op' hop'
      rcases mem_cons.1 hop' with rfl | hmem
      · exact hstarted
      · exact inv.detached op' hmem
    · intro x hx
      -- an active timer is that of `op`, so it has been cancelled
      exfalso
      have hmem : x ∈ s.timers := by
        split at hx
        · exact mem_of_mem_filter hx
        · exact hx
      obtain ⟨hr, htimer⟩ := inv.timers x hmem
      obtain rfl := Option.some.inj (hread.symm.trans hr)
      rw [htimer] at hx
      simp at hx

theorem completeWrite_inv (inv : StreamInv s) : StreamInv (s.completeWrite result) := by
  cases hwrite : s.pendingWrite with
  | none => rwa [completeWrite_none hwrite]
  | some op =>
    have hstarted : op ∈ s.started := (inv.pendingWrite op hwrite).1
    have hother : ∀ op', op' ≠ op → outcomes op' (s.log ++ [.schedule op result]) = outcomes op' s.log := fun op' hne =>
      outcomes_other hne s.log
    simp only [ReactorStream.completeWrite, hwrite]
    constructor
    · intro op' hop'
      obtain ⟨hs, hz, hr, hd⟩ := inv.pendingRead op' hop'
      have hne : op' ≠ op := fun heq => inv.distinct op' hop' (heq ▸ hwrite)
      exact ⟨hs, (hother op' hne).trans hz, hr, hd⟩
    · intro op' hop'
      cases hop'
    · intro op' _ hop'
      cases hop'
    · intro op' hs hnot
      refine inv.finished_schedule (.inr hwrite) (fun op' hne hpending => ?_) hs hnot
      rcases hpending with hr | hw
      · exact .inl hr
      · exact absurd (Option.some.inj (hwrite.symm.trans hw)).symm hne
    · intro op' hs
      rw [hother op' fun heq => hs (heq ▸ hstarted)]
      exact inv.fresh op' hs
    · exact inv.detached
    · exact inv.timers

variable (s result) in
theorem completeRead_frame : (s.completeRead result).pendingRead = none ∧
    (s.completeRead result).pendingWrite = s.pendingWrite ∧ (s.completeRead result).closed = s.closed ∧
    (s.completeRead result).fdOpen = s.fdOpen ∧ (s.completeRead result).started = s.started ∧
    s.log <+: (s.completeRead result).log := by
  cases hread : s.pendingRead with
  | none => simp [completeRead_none hread, hread]
  | some op => simp [ReactorStream.completeRead, hread]

variable (s result) in
theorem completeWrite_frame : (s.completeWrite result).pendingWrite = none ∧
    (s.completeWrite result).pendingRead = s.pendingRead ∧ (s.completeWrite result).closed = s.closed ∧
    (s.completeWrite result).fdOpen = s.fdOpen ∧ (s.completeWrite result).started = s.started ∧
    s.log <+: (s.completeWrite result).log := by
  cases hwrite : s.pendingWrite with
  | none => simp [completeWrite_none hwrite, hwrite]
  | some op => simp [ReactorStream.completeWrite, hwrite]

/-- `t` is reached from `s` by completing operations -/
structure Completing (s t : ReactorStream) : Prop where
  inv : StreamInv t
  close : CloseInv t
  log : s.log <+: t.log
  closed : t.closed = s.closed
  started : t.started = s.started

theorem Completing.completeRead (h : Completing s t) : Completing s (t.completeRead result) := by
  obtain ⟨hread, hwrite, hclosed, hfd, hstarted, hlog⟩ := completeRead_frame t result
  refine ⟨completeRead_inv h.inv, ⟨?_, fun hc => ⟨hread, ?_⟩⟩, h.log.trans hlog, hclosed.trans h.closed,
    hstarted.trans h.started⟩
  · rw [hfd, hclosed, h.close.fd]
  · rw [hwrite]
    exact (h.close.slots (hclosed ▸ hc)).2

theorem Completing.completeWrite (h : Completing s t) : Completing s (t.completeWrite result) := by
  obtain ⟨hwrite, hread, hclosed, hfd, hstarted, hlog⟩ := completeWrite_frame t result
  refine ⟨completeWrite_inv h.inv, ⟨?_, fun hc => ⟨?_, hwrite⟩⟩, h.log.trans hlog, hclosed.trans h.closed,
    hstarted.trans h.started⟩
  · rw [hfd, hclosed, h.close.fd]
  · rw [hread]
    exact (h.close.slots (hclosed ▸ hc)).1

theorem Completing.handleRead (h : Completing s t) (attempt : IoAttempt) : Completing s (t.handleRead attempt) := by
  unfold ReactorStream.handleRead
  split
  · exact h.completeRead
  · exact h

theorem Completing.handleWrite (h : Completing s t) (attempt : IoAttempt) : Completing s (t.handleWrite attempt) := by
  unfold ReactorStream.handleWrite
  split
  · exact h.completeWrite
  · exact h

theorem Completing.dispatch (h : Completing s t) (revents : Events) (readAttempt writeAttempt : IoAttempt)
    (soError : Except ℕ ℕ) :
    Completing s ((streamChannel readAttempt writeAttempt soError).handleEventWithGuard revents t) := by
  apply handleEventWithGuard_induct (P := Completing s)
  · rintro f ⟨⟩ u hu
    exact hu.completeRead.completeWrite
  · rintro f ⟨⟩ u hu
    exact hu.completeRead.completeWrite
  · rintro f ⟨⟩ u hu
    exact hu.handleRead readAttempt
  · rintro f ⟨⟩ u hu
    exact hu.handleWrite writeAttempt
  · exact h

theorem immediate_inv (inv : StreamInv s) (hnew : op ∉ s.started) :
    StreamInv (({ s with started := op :: s.started } : ReactorStream).immediate op result) := by
  have hother : ∀ op', op' ≠ op → outcomes op' (s.log ++ [.immediate op result]) = outcomes op' s.log := fun op' hne =>
    outcomes_other hne s.log
  have hne : ∀ op' ∈ s.started, op' ≠ op := fun op' hmem heq => hnew (heq ▸ hmem)
  constructor
  · intro op' hop'
    obtain ⟨hs, hz, hr, hd⟩ := inv.pendingRead op' hop'
    exact ⟨mem_cons_of_mem _ hs, (hother op' (hne op' hs)).trans hz, hr, hd⟩
  · intro op' hop'
    obtain ⟨hs, hz, hw⟩ := inv.pendingWrite op' hop'
    exact ⟨mem_cons_of_mem _ hs, (hother op' (hne op' hs)).trans hz, hw⟩
  · exact inv.distinct
  · intro op' hs hnot
    rcases mem_cons.1 hs with rfl | hs
    · exact (outcomes_self (.immediate op' result) s.log).trans (by rw [StreamAction.op, inv.fresh op' hnew])
    · exact (hother op' (hne op' hs)).trans (inv.finished op' hs hnot)
  · intro op' hs
    obtain ⟨hne', hs⟩ := not_or.1 (mt mem_cons.2 hs)
    exact (hother op' hne').trans (inv.fresh op' hs)
  · exact fun op' hd => mem_cons_of_mem _ (inv.detached op' hd)
  · exact inv.timers

theorem pendRead_inv (inv : StreamInv s) (hnew : op ∉ s.started) (hnone : s.pendingRead = none)
    (timer : ℕ → Option ℕ) (timers : List (ℕ × ℕ)) (sequence : ℕ)
    (htimers : ∀ x ∈ timers, x.2 = op ∧ timer op = some x.1) :
    StreamInv { s with
      started := op :: s.started, pendingRead := some op, reading := true, hasChannel := true, timer := timer,
      timers := timers, nextSequence := sequence } := by
  constructor
  · rintro op' ⟨⟩
    exact ⟨mem_cons_self, inv.fresh op hnew, rfl, fun hd => hnew (inv.detached op hd)⟩
  · intro op' hop'
    obtain ⟨hs, hz, hw⟩ := inv.pendingWrite op' hop'
    exact ⟨mem_cons_of_mem _ hs, hz, hw⟩
  · rintro op' ⟨⟩ hw
    exact hnew (inv.pendingWrite op hw).1
  · intro op' hs hnot
    refine inv.finished_pend (.inl rfl) (fun op' hpending => ?_) hs hnot
    rcases hpending with hr | hw
    · cases hnone.symm.trans hr
    · exact .inr hw
  · exact fun op' hs => inv.fresh op' (not_or.1 (mt mem_cons.2 hs)).2
  · exact fun op' hd => mem_cons_of_mem _ (inv.detached op' hd)
  · intro x hx
    obtain ⟨hop, htimer⟩ := htimers x hx
    exact ⟨by rw [hop], by rw [hop]; exact htimer⟩

theorem pendWrite_inv (inv : StreamInv s) (hnew : op ∉ s.started) (hnone : s.pendingWrite = none) :
    StreamInv { s with started := op :: s.started, pendingWrite := some op, writing := true, hasChannel := true } := by
  constructor
  · intro op' hop'
    obtain ⟨hs, hz, hr, hd⟩ := inv.pendingRead op' hop'
    exact ⟨mem_cons_of_mem _ hs, hz, hr, hd⟩
  · rintro op' ⟨⟩
    exact ⟨mem_cons_self, inv.fresh op hnew, rfl⟩
  · rintro op' hr ⟨⟩
    exact hnew (inv.pendingRead op hr).1
  · intro op' hs hnot
    refine inv.finished_pend (.inr rfl) (fun op' hpending => ?_) hs hnot
    rcases hpending with hr | hw
    · exact .inl hr
    · cases hnone.symm.trans hw
  · exact fun op' hs => inv.fresh op' (not_or.1 (mt mem_cons.2 hs)).2
  · exact fun op' hd => mem_cons_of_mem _ (inv.detached op' hd)
  · exact inv.timers

structure Starting (op : ℕ) (s t : ReactorStream) : Prop where
  inv : StreamInv t
  close : CloseInv t
  log : s.log <+: t.log
  closed : t.closed = s.closed
  started : t.started = op :: s.started
  refused : s.closed = true → .immediate op (.error EBADF) ∈ t.log

theorem Starting.immediate (inv : StreamInv s) (hclose : CloseInv s) (hnew : op ∉ s.started)
    (hresult : s.closed = true → result = .error EBADF) :
    Starting op s (({ s with started := op :: s.started } : ReactorStream).immediate op result) :=
  ⟨immediate_inv inv hnew, ⟨hclose.fd, hclose.slots⟩, prefix_append _ _, rfl, rfl, fun hc => by
    simp [ReactorStream.immediate, hresult hc]⟩

theorem suspendRead_starting (inv : StreamInv s) (hclose : CloseInv s) (hnew : op ∉ s.started)
    (hnone : s.pendingRead = none) (timeout : Bool) (attempt : IoAttempt) :
    Starting op s (({ s with started := op :: s.started } : ReactorStream).suspendRead op timeout attempt) := by
  unfold ReactorStream.suspendRead
  split
  · exact .immediate inv hclose hnew fun _ => rfl
  · rename_i hopen
    have hnot : s.closed = false := by simpa using (not_or.1 hopen).1
    have htimers : ∀ x ∈ s.timers, False := by
      intro x hx
      have hr := (inv.timers x hx).1
      rw [hnone] at hr
      cases hr
    cases attempt with
    | done result => exact .immediate inv hclose hnew fun hc => absurd (hnot.symm.trans hc) (by decide)
    | pending =>
      have hslots : ∀ u : ReactorStream, u.fdOpen = s.fdOpen → u.closed = s.closed → CloseInv u := by
        intro u hfd hclosed
        refine ⟨by rw [hfd, hclosed, hclose.fd], fun hc => ?_⟩
        rw [hclosed, hnot] at hc
        cases hc
      dsimp only
      split
      · refine ⟨pendRead_inv inv hnew hnone _ _ _ ?_, hslots _ rfl rfl, prefix_rfl, rfl, rfl, fun hc => ?_⟩
        · intro x hx
          rcases mem_append.1 hx with hx | hx
          · exact (htimers x hx).elim
          · obtain rfl := mem_singleton.1 hx
            exact ⟨rfl, update_self ..⟩
        · rw [hnot] at hc
          cases hc
      · refine ⟨pendRead_inv inv hnew hnone _ _ _ fun x hx => (htimers x hx).elim, hslots _ rfl rfl, prefix_rfl,
          rfl, rfl, fun hc => ?_⟩
        rw [hnot] at hc
        cases hc

theorem suspendWrite_starting (inv : StreamInv s) (hclose : CloseInv s) (hnew : op ∉ s.started)
    (hnone : s.pendingWrite = none) (attempt : IoAttempt) :
    Starting op s (({ s with started := op :: s.started } : ReactorStream).suspendWrite op attempt) := by
  unfold ReactorStream.suspendWrite
  split
  · exact .immediate inv hclose hnew fun _ => rfl
  · rename_i hopen
    have hnot : s.closed = false := by simpa using (not_or.1 hopen).1
    cases attempt with
    | done result => exact .immediate inv hclose hnew fun hc => absurd (hnot.symm.trans hc) (by decide)
    | pending =>
      refine ⟨pendWrite_inv inv hnew hnone, ⟨hclose.fd, fun hc => ?_⟩, prefix_rfl, rfl, rfl, fun hc => ?_⟩ <;>
        · exact absurd (hnot.symm.trans hc) (by decide)

theorem close_out (inv : StreamInv s) (hclose : CloseInv s) :
    StreamInv s.close ∧ CloseInv s.close ∧ s.log <+: s.close.log ∧ s.close.closed = true ∧ s.close.started = s.started ∧
      ∀ op, s.isPending op → .schedule op (.error ECANCELED) ∈ s.close.log := by
  unfold ReactorStream.close
  split
  · rename_i hclosed
    refine ⟨inv, hclose, prefix_rfl, hclosed, rfl, ?_⟩
    rintro op (hr | hw)
    · rw [(hclose.slots hclosed).1] at hr
      cases hr
    · rw [(hclose.slots hclosed).2] at hw
      cases hw
  · have inv₀ : StreamInv { s with closed := true } :=
      ⟨inv.pendingRead, inv.pendingWrite, inv.distinct, inv.finished, inv.fresh, inv.detached, inv.timers⟩
    have inv₁ : StreamInv (ReactorStream.completeWrite (.error ECANCELED) (ReactorStream.completeRead (.error ECANCELED)
        { s with closed := true })) := completeWrite_inv (completeRead_inv inv₀)
    obtain ⟨hread, hwrite, hclosed, -, hstarted, hlog⟩ :=
      completeRead_frame { s with closed := true } (.error ECANCELED)
    obtain ⟨hwrite', hread', hclosed', -, hstarted', hlog'⟩ :=
      completeWrite_frame (ReactorStream.completeRead (.error ECANCELED) { s with closed := true }) (.error ECANCELED)
    refine ⟨?_, ⟨?_, fun _ => ⟨hread'.trans hread, hwrite'⟩⟩, hlog.trans hlog', hclosed'.trans hclosed,
      hstarted'.trans hstarted, ?_⟩
    · refine ⟨fun op hop => ?_, fun op hop => ?_, inv₁.distinct, inv₁.finished, inv₁.fresh, inv₁.detached, inv₁.timers⟩
      · exact absurd (hop.symm.trans (hread'.trans hread)) (by simp)
      · exact absurd (hop.symm.trans hwrite') (by simp)
    · exact (congrArg (! ·) (hclosed'.trans hclosed)).symm
    · rintro op (hr | hw)
      · refine hlog'.subset ?_
        simp [ReactorStream.completeRead, hr]
      · have hw' : (ReactorStream.completeRead (.error ECANCELED) { s with closed := true }).pendingWrite = some op :=
          hwrite.trans hw
        simp [ReactorStream.completeWrite, hw', ReactorStream.detachChannel]

theorem timer_out (inv : StreamInv s) (hclose : CloseInv s) {sequence : ℕ}
    (hst : streamStep s (.timer sequence) = some t) :
    Completing s t ∧ ∃ op, s.timers.find? (fun x => x.1 = sequence) = some (sequence, op) ∧ s.pendingRead = some op ∧
      outcomes op s.log = 0 := by
  simp only [streamStep] at hst
  split at hst
  · rename_i x hfind
    obtain rfl := Option.some.inj hst
    obtain ⟨sequence', op⟩ := x
    have hseq : sequence' = sequence := by simpa using List.find?_some hfind
    subst hseq
    have hmem := mem_of_find?_eq_some hfind
    have hread := (inv.timers _ hmem).1
    have inv₀ : Completing s { s with timers := s.timers.filter fun t => t.1 ≠ sequence' } :=
      ⟨⟨inv.pendingRead, inv.pendingWrite, inv.distinct, inv.finished, inv.fresh, inv.detached, fun x hx =>
        inv.timers x (mem_of_mem_filter hx)⟩, ⟨hclose.fd, hclose.slots⟩, prefix_rfl, rfl, rfl⟩
    refine ⟨?_, op, hfind, hread, (inv.pendingRead op hread).2.1⟩
    unfold ReactorStream.onTimer
    split
    · exact inv₀.completeRead
    · exact inv₀
  · cases hst

/-! ## Runs -/

structure Later (s t : ReactorStream) : Prop where
  log : s.log <+: t.log
  closed : s.closed = true → t.closed = true
  started : ∀ op ∈ s.started, op ∈ t.started

theorem Later.refl (s : ReactorStream) : Later s s := ⟨prefix_rfl, id, fun _ => id⟩

theorem Later.trans {u : ReactorStream} (h : Later s t) (h' : Later t u) : Later s u :=
  ⟨h.log.trans h'.log, h'.closed ∘ h.closed, fun op hop => h'.started op (h.started op hop)⟩

theorem Completing.later (h : Completing s t) : Later s t :=
  ⟨h.log, fun hc => h.closed.trans hc, fun _ hop => h.started ▸ hop⟩

theorem Starting.later (h : Starting op s t) : Later s t :=
  ⟨h.log, fun hc => h.closed.trans hc, fun _ hop => h.started ▸ mem_cons_of_mem _ hop⟩

/-- **One step.** -/
theorem streamStep_inv {e : StreamEvent} (inv : StreamInv s) (hclose : CloseInv s) (hst : streamStep s e = some t) :
    StreamInv t ∧ CloseInv t ∧ Later s t := by
  cases e with
  | readSome op timeout attempt =>
    obtain ⟨⟨hnew, hnone⟩, rfl⟩ := of_ite_some hst
    have h := suspendRead_starting inv hclose hnew hnone timeout attempt
    exact ⟨h.inv, h.close, h.later⟩
  | writeSome op attempt =>
    obtain ⟨⟨hnew, hnone⟩, rfl⟩ := of_ite_some hst
    have h := suspendWrite_starting inv hclose hnew hnone attempt
    exact ⟨h.inv, h.close, h.later⟩
  | close =>
    obtain rfl := Option.some.inj hst
    obtain ⟨hinv, hclose', hlog, hclosed, hstarted, -⟩ := close_out inv hclose
    exact ⟨hinv, hclose', hlog, fun _ => hclosed, fun op hop => hstarted ▸ hop⟩
  | dispatch revents readAttempt writeAttempt soError =>
    obtain rfl := Option.some.inj hst
    have h := (Completing.mk inv hclose prefix_rfl rfl rfl).dispatch revents readAttempt writeAttempt soError
    exact ⟨h.inv, h.close, h.later⟩
  | timer sequence =>
    obtain ⟨h, -⟩ := timer_out inv hclose hst
    exact ⟨h.inv, h.close, h.later⟩

theorem init_streamInv : StreamInv {} ∧ CloseInv {} := by
  refine ⟨⟨?_, ?_, ?_, ?_, ?_, ?_, ?_⟩, rfl, ?_⟩ <;> simp [outcomes]

theorem run_streamInv : ∀ (tr : List StreamEvent) (s : ReactorStream), run streamStep {} tr = some s →
    StreamInv s ∧ CloseInv s :=
  run_induct (fun _ s => StreamInv s ∧ CloseInv s) init_streamInv fun _ _ _ _ _ ih hst =>
    ⟨(streamStep_inv ih.1 ih.2 hst).1, (streamStep_inv ih.1 ih.2 hst).2.1⟩

theorem run_later (inv : StreamInv s) (hclose : CloseInv s) (r : List StreamEvent)
    (hrun : run streamStep s r = some t) :
    Later s t := by
  induction r generalizing s with
  | nil =>
    obtain rfl := Option.some.inj hrun
    exact .refl s
  | cons e r ih =>
    obtain ⟨u, hst, hrest⟩ := Option.bind_eq_some_iff.1 hrun
    obtain ⟨hinv, hclose', hlater⟩ := streamStep_inv inv hclose hst
    exact hlater.trans (ih hinv hclose' hrest)

theorem starts_out {e : StreamEvent} (inv : StreamInv s) (hclose : CloseInv s) (hst : streamStep s e = some t)
    (he : e.starts = some op) : Starting op s t := by
  cases e with
  | readSome op' timeout attempt =>
    cases he
    obtain ⟨⟨hnew, hnone⟩, rfl⟩ := of_ite_some hst
    exact suspendRead_starting inv hclose hnew hnone timeout attempt
  | writeSome op' attempt =>
    cases he
    obtain ⟨⟨hnew, hnone⟩, rfl⟩ := of_ite_some hst
    exact suspendWrite_starting inv hclose hnew hnone attempt
  | _ => cases he

/-- **Operations complete once**, in every run in which the caller has at most one read and one write pending. -/
theorem completes_once {tr : List StreamEvent} (hrun : run streamStep {} tr = some s) : CompletesOnce tr s := by
  obtain ⟨inv, hclose⟩ := run_streamInv tr s hrun
  -- the states before and after an event of the run
  have hat : ∀ l e r, tr = l ++ e :: r → ∃ u v, run streamStep {} l = some u ∧ StreamInv u ∧ CloseInv u ∧
      streamStep u e = some v ∧ Later v s := by
    rintro l e r rfl
    obtain ⟨u, hu, hrest⟩ := run_append_some hrun
    obtain ⟨v, hv, hr⟩ := Option.bind_eq_some_iff.1 hrest
    obtain ⟨hinv, hc⟩ := run_streamInv l u hu
    obtain ⟨hinv', hc', -⟩ := streamStep_inv hinv hc hv
    exact ⟨u, v, hu, hinv, hc, hv, run_later hinv' hc' r hr⟩
  have hclosed : ∀ l u, run streamStep {} l = some u → .close ∈ l → u.closed = true := by
    intro l u hu hmem
    obtain ⟨l', r', rfl⟩ := append_of_mem hmem
    obtain ⟨v, hv, hrest⟩ := run_append_some hu
    obtain ⟨w, hw, hr⟩ := Option.bind_eq_some_iff.1 hrest
    obtain ⟨hinv, hc⟩ := run_streamInv l' v hv
    obtain rfl := Option.some.inj hw
    obtain ⟨hinv', hc', -, hcl, -, -⟩ := close_out hinv hc
    exact (run_later hinv' hc' r' hr).closed hcl
  refine ⟨fun op => ?_, fun l e r op htr he => ?_, fun hmem op => ?_, fun l r u op htr hu hop => ?_,
    fun l e r op htr hmem he => ?_, fun l sequence r u htr hu => ?_⟩
  · by_cases hs : op ∈ s.started
    · by_cases hp : s.isPending op
      · rcases hp with hr | hw
        · exact (inv.pendingRead op hr).2.1.trans_le (Nat.zero_le 1)
        · exact (inv.pendingWrite op hw).2.1.trans_le (Nat.zero_le 1)
      · exact (inv.finished op hs hp).le
    · exact (inv.fresh op hs).trans_le (Nat.zero_le 1)
  · obtain ⟨u, v, -, hinv, hc, hv, hlater⟩ := hat l e r htr
    have hs : op ∈ s.started := hlater.started op ((starts_out hinv hc hv he).started ▸ mem_cons_self)
    by_cases hp : s.isPending op
    · rcases hp with hr | hw
      · obtain ⟨-, hz, hi, -⟩ := inv.pendingRead op hr
        exact .inr ⟨hz, .inl ⟨hr, hi⟩⟩
      · obtain ⟨-, hz, hi⟩ := inv.pendingWrite op hw
        exact .inr ⟨hz, .inr ⟨hw, hi⟩⟩
    · exact .inl (inv.finished op hs hp)
  · obtain ⟨hr, hw⟩ := hclose.slots (hclosed tr s hrun hmem)
    rintro (h | h)
    · exact absurd (hr.symm.trans h) (by simp)
    · exact absurd (hw.symm.trans h) (by simp)
  · obtain ⟨u', v, hu', hinv, hc, hv, hlater⟩ := hat l _ r htr
    obtain rfl := Option.some.inj (hu.symm.trans hu')
    obtain rfl := Option.some.inj hv
    exact hlater.log.subset ((close_out hinv hc).2.2.2.2.2 op hop)
  · obtain ⟨u, v, hu, hinv, hc, hv, hlater⟩ := hat l e r htr
    exact hlater.log.subset ((starts_out hinv hc hv he).refused (hclosed l u hu hmem))
  · obtain ⟨u', v, hu', hinv, hc, hv, -⟩ := hat l _ r htr
    obtain rfl := Option.some.inj (hu.symm.trans hu')
    exact (timer_out hinv hc hv).2

end Invariant

/-- a read with a timeout waits; it is not ready at the first event; its timer fires; a second read and a write wait and
are cancelled by `Close`; a third read is refused -/
def closedRun : List StreamEvent :=
  [.readSome 1 true .pending, .dispatch { read := true } .pending .pending (.ok 0), .timer 0, .readSome 2 true .pending,
   .writeSome 3 .pending, .close, .readSome 4 false .pending]

theorem completes_once_closedRun : ∃ s, run streamStep {} closedRun = some s ∧ CompletesOnce closedRun s ∧
    s.log = [.schedule 1 (.error ETIMEDOUT), .schedule 2 (.error ECANCELED), .schedule 3 (.error ECANCELED),
      .immediate 4 (.error EBADF)] :=
  ⟨_, rfl, completes_once rfl, rfl⟩

end Coropact.Net
