/-
Connecting (`src/net/reactor_connect.cc`).

`await_suspend` starts a non-blocking connect and, if it is in progress, registers a channel whose error and write
callbacks are both `OnReady`. `OnReady` reads SO_ERROR, detaches and destroys the channel, sets the result and schedules
the coroutine. Reading SO_ERROR clears it, so `answers n` is what the n-th read gives. The log records each callback,
with whether its channel was still there, each read of SO_ERROR and each `Schedule`.

A refused connect is reported with the error and the write event together, so the dispatch runs `OnReady` twice. A
hang-up alone has no callback.
-/
import Coropact.Net.Channel

namespace Coropact.Net

/-! ## Model -/

inductive ConnectAction where
  /-- a callback of the channel is called; is the channel still there? -/
  | called (alive : Bool)
  | soError (answer : Except ℕ ℕ)
  | schedule
deriving DecidableEq, Repr

structure ConnectAwaiter where
  /-- `none` is -1 -/
  fd : Option ℕ := none
  /-- the optional channel is there, and registered with the poller -/
  channel : Bool := false
  /-- the descriptor of the stream, or an errno -/
  result : Option (Except ℕ (Option ℕ)) := none
  log : List ConnectAction := []
deriving DecidableEq, Repr

open ConnectAwaiter

/-- what `connect` returned last (it is called again after EINTR) -/
inductive ConnectAnswer where
  | connected | inProgress | failed (errno : ℕ)
deriving DecidableEq, Repr

def ConnectAwaiter.act (a : ConnectAwaiter) (x : ConnectAction) : ConnectAwaiter := { a with log := a.log ++ [x] }

def ConnectAwaiter.detachChannel (a : ConnectAwaiter) : ConnectAwaiter := { a with channel := false }

def ConnectAwaiter.makeStream (a : ConnectAwaiter) : ConnectAwaiter :=
  let a := a.detachChannel
  { a with fd := none, result := some (.ok a.fd) }

/-- the awaiter, and whether the coroutine stays suspended -/
def awaitSuspend (socket : Except ℕ ℕ) (connect : ConnectAnswer) : ConnectAwaiter × Bool :=
  match socket with
  | .error errno => ({ result := some (.error errno) }, false)
  | .ok fd =>
    match connect with
    | .connected => (({ fd := some fd } : ConnectAwaiter).makeStream, false)
    | .failed errno => ({ fd := some fd, result := some (.error errno) }, false)
    | .inProgress => ({ fd := some fd, channel := true }, true)

def soReads (log : List ConnectAction) : ℕ := log.countP fun x => match x with | .soError _ => true | _ => false

def calls (log : List ConnectAction) : ℕ := log.countP fun x => match x with | .called _ => true | _ => false

def schedules (log : List ConnectAction) : ℕ := log.count .schedule

section Model

variable (answers : ℕ → Except ℕ ℕ)

/-- `getsockopt` fails on a closed descriptor -/
def connectError (a : ConnectAwaiter) : Except ℕ ℕ :=
  match a.fd with
  | none => .error EBADF
  | some _ => answers (soReads a.log)

def onReady (a : ConnectAwaiter) : ConnectAwaiter :=
  let error := connectError answers a
  let a := a.act (.soError error)
  let a := match error with
    | .error errno => { a.detachChannel with result := some (.error errno) }
    | .ok 0 => a.makeStream
    | .ok (errno + 1) => { a.detachChannel with result := some (.error (errno + 1)) }
  a.act .schedule

def readyCallback (a : ConnectAwaiter) : ConnectAwaiter := onReady answers (a.act (.called a.channel))

def connectChannel : Channel ConnectAwaiter where
  writeCallback := some (readyCallback answers)
  errorCallback := some (readyCallback answers)

/-- one poll of the loop: a channel that is not registered gets no events -/
def pollConnect (a : ConnectAwaiter) (revents : Events) : ConnectAwaiter :=
  if a.channel then (connectChannel answers).handleEventWithGuard revents a else a

structure ConnectOnce (a : ConnectAwaiter) (revents : Events) : Prop where
  onReadyOnce : calls (pollConnect answers a revents).log ≤ 1
  scheduledOnce : schedules (pollConnect answers a revents).log = 1
  success : ∀ fd, (pollConnect answers a revents).result = some (.ok fd) → answers 0 = .ok 0
  /-- no callback of a destroyed channel is called -/
  alive : ∀ b, .called b ∈ (pollConnect answers a revents).log → b = true

end Model

/-! ## One event -/

section Dispatch

variable {answers : ℕ → Except ℕ ℕ} {a : ConnectAwaiter} {revents : Events}

theorem awaitSuspend_suspended {socket : Except ℕ ℕ} {connect : ConnectAnswer}
    (h : awaitSuspend socket connect = (a, true)) :
    ∃ fd, a = { fd := some fd, channel := true } := by
  cases socket with
  | error errno => cases h
  | ok fd =>
    cases connect with
    | inProgress =>
      cases h
      exact ⟨fd, rfl⟩
    | connected => cases h
    | failed errno => cases h

variable (answers) in
theorem onReady_out {fd : ℕ} (hfd : a.fd = some fd) :
    (onReady answers a).channel = false ∧
      (onReady answers a).log = a.log ++ [.soError (answers (soReads a.log)), .schedule] ∧
      (∀ fd', (onReady answers a).result = some (.ok fd') → answers (soReads a.log) = .ok 0) := by
  have herror : connectError answers a = answers (soReads a.log) := by simp [connectError, hfd]
  simp only [onReady, herror]
  cases hans : answers (soReads a.log) with
  | error errno => simp [act, detachChannel]
  | ok n =>
    cases n with
    | zero => simp [act, makeStream, detachChannel]
    | succ n => simp [act, detachChannel]

theorem dispatch_one (hone : revents.error ≠ revents.write) :
    (connectChannel answers).handleEventWithGuard revents a = readyCallback answers a := by
  obtain ⟨read, write, error, hup⟩ := revents
  cases error with
  | true =>
    cases write with
    | true => exact absurd rfl hone
    | false => cases read <;> cases hup <;> rfl
  | false =>
    cases write with
    | true => cases read <;> cases hup <;> rfl
    | false => exact absurd rfl hone

theorem dispatch_none (herror : revents.error = false) (hwrite : revents.write = false) :
    pollConnect answers a revents = a := by
  obtain ⟨read, write, error, hup⟩ := revents
  cases herror
  cases hwrite
  unfold pollConnect
  split
  · cases read <;> cases hup <;> rfl
  · rfl

theorem dispatch_both (herror : revents.error = true) (hwrite : revents.write = true) :
    (connectChannel answers).handleEventWithGuard revents a = readyCallback answers (readyCallback answers a) := by
  obtain ⟨read, write, error, hup⟩ := revents
  cases herror
  cases hwrite
  cases read <;> cases hup <;> rfl

theorem calls_readyCallback : calls (readyCallback answers a).log = calls a.log + 1 := by
  simp only [readyCallback, onReady]
  split <;> simp [act, makeStream, detachChannel, calls]

/-- **A connect resumes once exactly if** one of the error and the write event comes, and not both. -/
theorem connect_once {socket : Except ℕ ℕ} {connect : ConnectAnswer} (h : awaitSuspend socket connect = (a, true)) :
    ConnectOnce answers a revents ↔ revents.error ≠ revents.write := by
  obtain ⟨fd, rfl⟩ := awaitSuspend_suspended h
  constructor
  · intro honce heq
    cases hwrite : revents.write with
    | false =>
      have hscheduled := honce.scheduledOnce
      rw [dispatch_none (heq.trans hwrite) hwrite] at hscheduled
      cases hscheduled
    | true =>
      have hcalls := honce.onReadyOnce
      rw [pollConnect, if_pos rfl, dispatch_both (heq.trans hwrite) hwrite, calls_readyCallback, calls_readyCallback]
        at hcalls
      omega
  intro hone
  have hpoll : pollConnect answers { fd := some fd, channel := true } revents =
      onReady answers { fd := some fd, channel := true, log := [.called true] } := dispatch_one hone
  obtain ⟨-, hlog, hsuccess⟩ := onReady_out answers
    (a := { fd := some fd, channel := true, log := [.called true] }) rfl
  constructor
  · rw [hpoll, hlog]
    simp [calls]
  · rw [hpoll, hlog]
    simp [schedules]
  · intro fd' hfd'
    rw [hpoll] at hfd'
    exact hsuccess fd' hfd'
  · intro b hb
    rw [hpoll, hlog] at hb
    simpa using hb

end Dispatch

def refused : ℕ → Except ℕ ℕ
  | 0 => .ok 111
  | _ => .ok 0

def connecting : ConnectAwaiter := (awaitSuspend (.ok 5) .inProgress).1

theorem connect_once_refused : ConnectOnce refused connecting { error := true } ∧
    (pollConnect refused connecting { error := true }).result = some (.error 111) :=
  ⟨(connect_once (rfl : awaitSuspend (.ok 5) .inProgress = (connecting, true))).2 (by decide), by decide⟩

/-- **A refused connect reports success.** The poller delivers error, hang-up and write together: `OnReady` runs twice,
the second time as a callback of a channel that has been destroyed, the coroutine is scheduled twice, and the result is
a stream although the first read of SO_ERROR was ECONNREFUSED. A hang-up alone schedules nothing. -/
theorem refused_connect_reports_success :
    pollConnect refused connecting (fromEpollEvents { epollErr := true, epollHup := true, epollOut := true }) =
      { fd := none, channel := false, result := some (.ok (some 5)),
        log := [.called true, .soError (.ok 111), .schedule, .called false, .soError (.ok 0), .schedule] } ∧
    (∀ answers, schedules (pollConnect answers connecting (fromEpollEvents { epollHup := true })).log = 0) ∧
    ¬ConnectOnce refused connecting (fromEpollEvents { epollErr := true, epollHup := true, epollOut := true }) := by
  refine ⟨by decide, fun _ => rfl, fun h => ?_⟩
  exact absurd h.scheduledOnce (by decide)

/-! ## Runs of the poller -/

section Runs

variable {answers : ℕ → Except ℕ ℕ}

theorem foldl_detached {a : ConnectAwaiter} (sets : List Events) (h : a.channel = false) :
    sets.foldl (pollConnect answers) a = a := by
  induction sets with
  | nil => rfl
  | cons e sets ih =>
    have hpoll : pollConnect answers a e = a := by simp [pollConnect, h]
    rw [List.foldl_cons, hpoll, ih]

/-- **Over a whole run** in which no ready set has both events, the coroutine is scheduled at most once, and as soon as
a set has one of them. -/
theorem run_connect_once {socket : Except ℕ ℕ} {connect : ConnectAnswer} {a : ConnectAwaiter}
    (h : awaitSuspend socket connect = (a, true)) (sets : List Events)
    (hsets : ∀ e ∈ sets, e.error = false ∨ e.write = false) :
    schedules (sets.foldl (pollConnect answers) a).log =
      if ∃ e ∈ sets, e.error = true ∨ e.write = true then 1 else 0 := by
  obtain ⟨fd, ha⟩ := awaitSuspend_suspended h
  induction sets with
  | nil => simp [ha, schedules]
  | cons e sets ih =>
    rw [List.foldl_cons]
    by_cases hnone : e.error = false ∧ e.write = false
    · rw [dispatch_none hnone.1 hnone.2, ih fun e' he' => hsets e' (List.mem_cons_of_mem _ he')]
      simp [hnone]
    · have hone : e.error ≠ e.write := by
        intro heq
        rcases hsets e List.mem_cons_self with hfalse | hfalse
        · exact hnone ⟨hfalse, heq ▸ hfalse⟩
        · exact hnone ⟨heq.trans hfalse, hfalse⟩
      have hpoll : pollConnect answers a e = readyCallback answers a := by
        rw [pollConnect, ha, if_pos rfl]
        exact dispatch_one hone
      obtain ⟨hchannel, hlog, -⟩ := onReady_out answers
        (show (a.act (.called a.channel)).fd = some fd by rw [ha]; rfl)
      rw [hpoll, foldl_detached sets (a := readyCallback answers a) hchannel, if_pos]
      · rw [readyCallback, hlog]
        simp [ha, act, schedules]
      · refine ⟨e, List.mem_cons_self, ?_⟩
        by_contra hneither
        exact hnone (by simpa using hneither)

end Runs

theorem run_connect_once_refused :
    schedules ([{}, { error := true }, { write := true }].foldl (pollConnect refused) connecting).log = 1 :=
  (run_connect_once (rfl : awaitSuspend (.ok 5) .inProgress =
    (connecting, true)) _ (by decide)).trans (if_pos (by decide))

end Coropact.Net
