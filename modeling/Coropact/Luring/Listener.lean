/-
Accept and close of an io_uring listener (`src/luring/listener.cc`, with `LUringOp::Complete` of
`include/coropact/luring/op.h` and `LUringLoop::HandleCqe` of `src/luring/loop.cc`).

Any number of accepts may be in flight on one listener. `Close` lets no further one in. With none in flight it closes
the descriptor at once; otherwise it submits a cancel request for the descriptor and waits for that request and for
every accept, in whatever order they complete, and the last of these completions closes the descriptor. If the cancel
request cannot be submitted the listener is open again.

Calls are numbered, and a number is used once. What the loop answers to `SubmitOp`, and the kernel to `close`, is an
argument of the event; any entry in flight may complete next. What the source asserts (`pending_accepts_ > 0`, a
listener that is still there) follows from `ListenerInv`.
-/
import Coropact.Luring.Stream

namespace Coropact.Luring

open Coropact.Machine Function List

/-! ## Model -/

inductive ListenerCall where
  | accept (id : ℕ)
  | close (id : ℕ)
deriving DecidableEq, Repr

inductive ListenerAction where
  /-- what `await_resume` returns: at once, or when the coroutine that is scheduled now goes on -/
  | result (c : ListenerCall) (scheduled : Bool) (r : StreamResult)
  | closeFd
deriving DecidableEq

structure LUringListener where
  closed : Bool := false
  /-- `fd_ >= 0` -/
  fdOpen : Bool := true
  pendingAccepts : ℕ := 0
  pendingClose : Option ℕ := none
  /-- of the close awaiters -/
  flags : ℕ → AwaiterFlags := fun _ => {}
  started : List ListenerCall := []
  /-- accepts in flight -/
  accepting : List ℕ := []
  /-- cancel requests in flight -/
  cancelling : List ℕ := []
  log : List ListenerAction := []

namespace LUringListener

def act (s : LUringListener) (a : ListenerAction) : LUringListener := { s with log := s.log ++ [a] }

def closeFd (s : LUringListener) (answer : Except ℕ Unit) : StreamResult × LUringListener :=
  if s.fdOpen then (answer.map fun _ => none, ({ s with fdOpen := false } : LUringListener).act .closeFd)
  else (.ok none, s)

def accept (s : LUringListener) (id : ℕ) (submitted : Except ℕ Unit) : LUringListener :=
  if s.closed ∨ s.fdOpen = false then s.act (.result (.accept id) false (.error EBADF))
  else
    let s := { s with pendingAccepts := s.pendingAccepts + 1 }
    match submitted with
    | .error errno =>
      ({ s with pendingAccepts := s.pendingAccepts - 1 } : LUringListener).act
        (.result (.accept id) false (.error errno))
    | .ok _ => { s with accepting := id :: s.accepting }

def close (s : LUringListener) (id : ℕ) (submitted answer : Except ℕ Unit) : LUringListener :=
  if s.pendingClose.isSome then s.act (.result (.close id) false (.error EBUSY))
  else if s.closed ∨ s.fdOpen = false then s.act (.result (.close id) false (.ok none))
  else
    let s := { s with closed := true }
    if s.pendingAccepts = 0 then (s.closeFd answer).2.act (.result (.close id) false (s.closeFd answer).1)
    else
      let s := { s with pendingClose := some id }
      match submitted with
      | .error errno =>
        ({ s with pendingClose := none, closed := false } : LUringListener).act
          (.result (.close id) false (.error errno))
      | .ok _ => { s with cancelling := id :: s.cancelling, flags := update s.flags id {} }

def tryComplete (s : LUringListener) (id : ℕ) (answer : Except ℕ Unit) : LUringListener :=
  if (s.flags id).completed ∨ (s.flags id).cancelCompleted = false then s
  else if s.pendingAccepts ≠ 0 then s
  else
    let s := { s with flags := update s.flags id { s.flags id with completed := true }, pendingClose := none }
    (s.closeFd answer).2.act (.result (.close id) true (s.closeFd answer).1)

def notifyCloseProgress (s : LUringListener) (answer : Except ℕ Unit) : LUringListener :=
  match s.pendingClose with
  | none => s
  | some id => s.tryComplete id answer

/-- `AcceptAwaiter::OnComplete`; then `HandleCqe` schedules the coroutine -/
def onComplete (s : LUringListener) (id : ℕ) (res : ℤ) (answer : Except ℕ Unit) : LUringListener :=
  let s := { s with pendingAccepts := s.pendingAccepts - 1 }
  (s.notifyCloseProgress answer).act
    (.result (.accept id) true (if res < 0 then .error res.natAbs else .ok (some res.toNat)))

def onCancelComplete (s : LUringListener) (id : ℕ) (answer : Except ℕ Unit) : LUringListener :=
  let s := { s with flags := update s.flags id { s.flags id with cancelCompleted := true } }
  s.tryComplete id answer

end LUringListener

inductive ListenerEvent where
  | accept (id : ℕ) (submitted : Except ℕ Unit)
  | close (id : ℕ) (submitted answer : Except ℕ Unit)
  | accepted (id : ℕ) (res : ℤ) (answer : Except ℕ Unit)
  | cancelled (id : ℕ) (answer : Except ℕ Unit)

def listenerStep (s : LUringListener) : ListenerEvent → Option LUringListener
  | .accept id submitted =>
    if .accept id ∉ s.started then
      some (({ s with started := .accept id :: s.started } : LUringListener).accept id submitted)
    else none
  | .close id submitted answer =>
    if .close id ∉ s.started then
      some (({ s with started := .close id :: s.started } : LUringListener).close id submitted answer)
    else none
  | .accepted id res answer =>
    if id ∈ s.accepting then
      some (({ s with accepting := s.accepting.erase id } : LUringListener).onComplete id res answer)
    else none
  | .cancelled id answer =>
    if id ∈ s.cancelling then
      some (({ s with cancelling := s.cancelling.erase id } : LUringListener).onCancelComplete id answer)
    else none

/-! ## The invariant -/

open LUringListener

/-- the call that has its result -/
def ListenerAction.call : ListenerAction → Option ListenerCall
  | .result c _ _ => some c
  | .closeFd => none

/-- the calls that have their results, in this order -/
def LUringListener.answered (s : LUringListener) : List ListenerCall := s.log.filterMap ListenerAction.call

/-- the calls that a completion is to answer -/
def LUringListener.waiting (s : LUringListener) : List ListenerCall :=
  s.accepting.map .accept ++ (s.pendingClose.map .close).toList

/-- `owed` are the calls that are to be answered before the handler returns -/
structure ListenerInv (owed : List ListenerCall) (s : LUringListener) : Prop where
  nodup : s.started.Nodup
  conserved : s.started ~ s.answered ++ (owed ++ s.waiting)
  accepts : s.pendingAccepts = s.accepting.length
  cancels : s.cancelling = match s.pendingClose with
    | none => []
    | some id => if (s.flags id).cancelCompleted then [] else [id]
  pending : ∀ id, s.pendingClose = some id → s.closed = true ∧ s.fdOpen = true ∧ (s.flags id).completed = false
  opened : s.closed = true → s.fdOpen = true → s.pendingClose.isSome = true
  held : s.fdOpen = false → s.closed = true ∧ s.accepting = []
  closes : s.log.countP (·.call.isNone) = if s.fdOpen then 0 else 1

/-- a close whose cancel request has completed waits for an accept -/
def LUringListener.Settled (s : LUringListener) : Prop :=
  ∀ id, s.pendingClose = some id → (s.flags id).cancelCompleted = true → s.pendingAccepts ≠ 0

section Step

variable {s : LUringListener} {owed : List ListenerCall} {c : ListenerCall} {id : ℕ}

theorem ListenerInv.start (inv : ListenerInv [] s) (hc : c ∉ s.started) :
    ListenerInv [c] { s with started := c :: s.started } := by
  refine { inv with nodup := nodup_cons.2 ⟨hc, inv.nodup⟩, conserved := ?_ }
  exact (inv.conserved.cons c).trans perm_middle.symm

theorem ListenerInv.answer (inv : ListenerInv (c :: owed) s) (scheduled : Bool) (r : StreamResult) :
    ListenerInv owed (s.act (.result c scheduled r)) := by
  refine { inv with conserved := ?_, closes := ?_ }
  · have hlog : (s.act (.result c scheduled r)).answered = s.answered ++ [c] := filterMap_append
    rw [hlog, append_assoc]
    exact inv.conserved
  · simp only [act, countP_append]
    exact inv.closes

theorem ListenerInv.accept (inv : ListenerInv [.accept id] s) (hset : s.Settled) (submitted : Except ℕ Unit) :
    ListenerInv [] (s.accept id submitted) ∧ (s.accept id submitted).Settled := by
  unfold LUringListener.accept
  split_ifs with hclosed
  · exact ⟨inv.answer _ _, hset⟩
  · cases submitted with
    | error errno => exact ⟨inv.answer _ _, hset⟩
    | ok _ =>
      have hopen : s.fdOpen = true := by simpa using fun h => hclosed (.inr h)
      refine ⟨{ inv with accepts := ?_, held := ?_ }, fun id hid hdone => Nat.succ_ne_zero _⟩
      · simpa using inv.accepts
      · simp [hopen]

/-- the descriptor is closed; a `Close` that waited is owed its result -/
theorem ListenerInv.shut (inv : ListenerInv owed s) (hopen : s.fdOpen = true) (hacc : s.pendingAccepts = 0)
    (hcancel : s.cancelling = []) (flags : ℕ → AwaiterFlags) :
    ListenerInv ((s.pendingClose.map .close).toList ++ owed)
      (LUringListener.act
        { s with closed := true, pendingClose := none, fdOpen := false, flags := flags } .closeFd) := by
  have hnil : s.accepting = [] := length_eq_zero_iff.1 (inv.accepts ▸ hacc)
  refine ⟨inv.nodup, ?_, inv.accepts, hcancel, ?_, ?_, fun _ => ⟨rfl, hnil⟩, ?_⟩
  · have hlog : ∀ u : LUringListener, (u.act .closeFd).answered = u.answered := by
      simp [answered, act, ListenerAction.call]
    have hperm := inv.conserved
    simp only [waiting, hnil, map_nil, nil_append] at hperm
    rw [hlog]
    simp only [waiting, act, hnil, map_nil, Option.map_none, Option.toList_none, append_nil]
    exact hperm.trans (perm_append_comm.append_left _)
  · simp [act]
  · simp [act]
  · have hcloses := inv.closes
    rw [hopen] at hcloses
    simp only [act, countP_append, hcloses]
    rfl

theorem ListenerInv.close (inv : ListenerInv [.close id] s) (hset : s.Settled) (submitted answer : Except ℕ Unit) :
    ListenerInv [] (s.close id submitted answer) ∧ (s.close id submitted answer).Settled := by
  unfold LUringListener.close
  split_ifs with hpending hrefused
  · exact ⟨inv.answer _ _, hset⟩
  · exact ⟨inv.answer _ _, hset⟩
  obtain ⟨hclosed, hopen⟩ : s.closed = false ∧ s.fdOpen = true := by simpa using hrefused
  have hnone : s.pendingClose = none := by simpa using hpending
  have hcancel : s.cancelling = [] := by rw [inv.cancels, hnone]
  dsimp only
  split_ifs with hacc
  · have hshut := inv.shut hopen hacc hcancel s.flags
    simp only [hnone, Option.map_none, Option.toList_none, nil_append] at hshut
    simp only [closeFd, hopen, if_true, hnone]
    exact ⟨hshut.answer _ _, by simp [Settled, act]⟩
  · cases submitted with
    | error errno =>
      have hback : { s with pendingClose := none, closed := false } = s := by rw [← hnone, ← hclosed]
      simp only [hback]
      exact ⟨inv.answer _ _, hset⟩
    | ok _ =>
      constructor
      · refine { inv with conserved := ?_, cancels := ?_, pending := ?_, opened := ?_, held := ?_ }
        · refine inv.conserved.trans (Perm.append_left _ ?_)
          simpa [waiting, hnone] using (perm_append_singleton _ _).symm
        · simp [hcancel]
        · simp [hopen]
        · simp
        · simp [hopen]
      · simp [Settled]

theorem ListenerInv.tryComplete (inv : ListenerInv owed s) (hid : s.pendingClose = some id) (answer : Except ℕ Unit) :
    ListenerInv owed (s.tryComplete id answer) ∧ (s.tryComplete id answer).Settled := by
  obtain ⟨hclosed, hopen, hcompleted⟩ := inv.pending id hid
  unfold LUringListener.tryComplete
  split_ifs with hwait hacc
  · refine ⟨inv, fun id' hid' hdone => ?_⟩
    obtain rfl : id = id' := Option.some.inj (hid.symm.trans hid')
    simp [hcompleted, hdone] at hwait
  · exact ⟨inv, fun _ _ _ => hacc⟩
  · have hcancel : s.cancelling = [] := by
      rw [inv.cancels, hid]
      simpa [hcompleted] using hwait
    have hshut := inv.shut hopen (not_not.1 hacc) hcancel (update s.flags id { s.flags id with completed := true })
    rw [hid] at hshut
    simp only [closeFd, hopen, hclosed, if_true]
    exact ⟨hshut.answer _ _, by simp [Settled, act]⟩

theorem ListenerInv.notifyCloseProgress (inv : ListenerInv owed s) (answer : Except ℕ Unit) :
    ListenerInv owed (s.notifyCloseProgress answer) ∧ (s.notifyCloseProgress answer).Settled := by
  unfold LUringListener.notifyCloseProgress
  split
  · rename_i hnone
    exact ⟨inv, fun id hid => by simp [hnone] at hid⟩
  · rename_i id hid
    exact inv.tryComplete hid answer

theorem step_listenerInv {t : LUringListener} {e : ListenerEvent} (inv : ListenerInv [] s) (hset : s.Settled)
    (hst : listenerStep s e = some t) : ListenerInv [] t ∧ t.Settled := by
  cases e with
  | accept id submitted =>
    obtain ⟨hnew, rfl⟩ := of_ite_some hst
    exact (inv.start hnew).accept hset submitted
  | close id submitted answer =>
    obtain ⟨hnew, rfl⟩ := of_ite_some hst
    exact (inv.start hnew).close hset submitted answer
  | accepted id res answer =>
    obtain ⟨hid, rfl⟩ := of_ite_some hst
    have hleft : ListenerInv [.accept id]
        { s with accepting := s.accepting.erase id, pendingAccepts := s.pendingAccepts - 1 } := by
      refine { inv with conserved := ?_, accepts := ?_, held := ?_ }
      · refine inv.conserved.trans (Perm.append_left _ ?_)
        exact ((perm_cons_erase hid).map _).append_right _
      · simp [inv.accepts, length_erase_of_mem hid]
      · intro hfd
        exact ⟨(inv.held hfd).1, by simp [(inv.held hfd).2]⟩
    obtain ⟨hinv, hdone⟩ := hleft.notifyCloseProgress answer
    exact ⟨hinv.answer _ _, hdone⟩
  | cancelled id answer =>
    obtain ⟨hid, rfl⟩ := of_ite_some hst
    have hcancels := inv.cancels
    obtain ⟨id', hclose⟩ : ∃ id', s.pendingClose = some id' := by
      apply Option.ne_none_iff_exists'.1
      intro hnone
      simp [hcancels, hnone] at hid
    rw [hclose] at hcancels
    dsimp only at hcancels
    split_ifs at hcancels with hdone
    · simp [hcancels] at hid
    · obtain rfl : id = id' := by simpa [hcancels] using hid
      have hmarked : ListenerInv [] { s with
          cancelling := s.cancelling.erase id
          flags := update s.flags id { s.flags id with cancelCompleted := true } } := by
        refine { inv with cancels := ?_, pending := ?_ }
        · simp [hcancels, hclose]
        · intro id' hid'
          obtain rfl : id = id' := Option.some.inj (hclose.symm.trans hid')
          simpa using inv.pending id hclose
      exact hmarked.tryComplete hclose answer

end Step

/-! ## What is in flight -/

section Flight

variable {s t : LUringListener} {e : ListenerEvent}

def LUringListener.inFlight (s : LUringListener) : ℕ := s.accepting.length + s.cancelling.length

def ListenerEvent.completes : ListenerEvent → Bool
  | .accepted .. | .cancelled .. => true
  | _ => false

/-- no call is started, nothing leaves the kernel, and the log only grows -/
def LUringListener.Keeps (s t : LUringListener) : Prop :=
  t.accepting = s.accepting ∧ t.cancelling = s.cancelling ∧ t.started = s.started ∧ s.log <+: t.log

theorem tryComplete_keeps (s : LUringListener) (id : ℕ) (answer : Except ℕ Unit) :
    s.Keeps (s.tryComplete id answer) := by
  unfold tryComplete closeFd
  dsimp only
  split_ifs <;> simp [act, Keeps]

theorem notifyCloseProgress_keeps (s : LUringListener) (answer : Except ℕ Unit) :
    s.Keeps (s.notifyCloseProgress answer) := by
  unfold notifyCloseProgress
  split
  · simp [Keeps]
  · exact tryComplete_keeps _ _ _

/-- calls and results stay, and while a `Close` waits only completions change what is in flight -/
theorem listenerStep_flight (hst : listenerStep s e = some t) : s.started ⊆ t.started ∧ s.log <+: t.log ∧
    (s.closed = true → s.pendingClose.isSome = true → t.inFlight + e.completes.toNat = s.inFlight) := by
  cases e with
  | accept id submitted =>
    obtain ⟨-, rfl⟩ := of_ite_some hst
    unfold accept
    split_ifs
    · simp [act, inFlight, ListenerEvent.completes]
    · cases submitted <;> simp_all [act]
  | close id submitted answer =>
    obtain ⟨-, rfl⟩ := of_ite_some hst
    unfold close closeFd
    dsimp only
    split_ifs
    · simp [act, inFlight, ListenerEvent.completes]
    rotate_right
    · cases submitted <;> simp_all [act]
    all_goals simp_all [act]
  | accepted id res answer =>
    obtain ⟨hmem, rfl⟩ := of_ite_some hst
    obtain ⟨hacc, hcan, hstarted, hlog⟩ := notifyCloseProgress_keeps
      { s with accepting := s.accepting.erase id, pendingAccepts := s.pendingAccepts - 1 } answer
    have hpos := length_pos_of_mem hmem
    refine ⟨fun _ hc => (congrArg (_ ∈ ·) hstarted).mpr hc, hlog.trans (prefix_append _ _), fun _ _ => ?_⟩
    simp only [onComplete, act, inFlight, ListenerEvent.completes, hacc, hcan, length_erase_of_mem hmem,
      Bool.toNat_true]
    omega
  | cancelled id answer =>
    obtain ⟨hmem, rfl⟩ := of_ite_some hst
    obtain ⟨hacc, hcan, hstarted, hlog⟩ := tryComplete_keeps
      { s with
        cancelling := s.cancelling.erase id
        flags := update s.flags id { s.flags id with cancelCompleted := true } } id answer
    have hpos := length_pos_of_mem hmem
    refine ⟨fun _ hc => (congrArg (_ ∈ ·) hstarted).mpr hc, hlog, fun _ _ => ?_⟩
    simp only [onCancelComplete, inFlight, ListenerEvent.completes, hacc, hcan, length_erase_of_mem hmem,
      Bool.toNat_true]
    omega

end Flight

/-! ## Runs -/

section Runs

variable {s t : LUringListener} {tr tr' : List ListenerEvent} {id : ℕ}

theorem run_listenerInv (h : run listenerStep {} tr = some s) : ListenerInv [] s ∧ s.Settled := by
  have h0 : ListenerInv [] {} := ⟨nodup_nil, .nil, rfl, rfl, by simp, by simp, by simp, rfl⟩
  exact run_induct (fun _ s => ListenerInv [] s ∧ s.Settled) ⟨h0, by simp [Settled]⟩
    (fun _ _ _ _ _ ih hst => step_listenerInv ih.1 ih.2 hst) tr s h

theorem ListenerInv.pendingClose_eq_none (inv : ListenerInv [] s) (hset : s.Settled) (hidle : s.inFlight = 0) :
    s.pendingClose = none := by
  obtain ⟨hacc, hcan⟩ : s.accepting = [] ∧ s.cancelling = [] := by simpa [inFlight] using hidle
  have hcancels := inv.cancels
  cases hid : s.pendingClose with
  | none => rfl
  | some id =>
    rw [hid, hcan] at hcancels
    dsimp only at hcancels
    split_ifs at hcancels with hdone
    exact absurd (by simp [inv.accepts, hacc]) (hset id hid hdone)

theorem ListenerInv.mem_started_iff (inv : ListenerInv [] s) (c : ListenerCall) :
    c ∈ s.started ↔ c ∈ s.answered ∨ c ∈ s.waiting := by
  rw [inv.conserved.mem_iff]
  simp

/-- what holds of a listener whose history is `tr` -/
structure ListenerProtocol (tr : List ListenerEvent) (s : LUringListener) : Prop where
  /-- a call has one result, or none as long as it waits for a completion -/
  once : s.answered.Nodup ∧ ∀ c, c ∈ s.started ↔ Xor (c ∈ s.answered) (c ∈ s.waiting)
  /-- the descriptor is closed at most once, and not under an accept -/
  held : s.log.countP (·.call.isNone) = (if s.fdOpen then 0 else 1) ∧ (s.accepting ≠ [] → s.fdOpen = true)
  /-- nothing waits for nothing, and a listener that is closed has closed its descriptor -/
  idle : s.inFlight = 0 → s.waiting = [] ∧ (s.closed = true ↔ s.fdOpen = false)
  /-- every connection the kernel has accepted is handed to its caller -/
  delivered : ∀ id res answer, .accepted id res answer ∈ tr → 0 ≤ res →
    .result (.accept id) true (.ok (some res.toNat)) ∈ s.log

theorem run_delivered (h : run listenerStep {} tr = some s) (id : ℕ) (res : ℤ) (answer : Except ℕ Unit)
    (hmem : .accepted id res answer ∈ tr) (hres : 0 ≤ res) :
    .result (.accept id) true (.ok (some res.toNat)) ∈ s.log := by
  refine run_induct (fun tr s => .accepted id res answer ∈ tr → _ ∈ s.log) (by simp) ?_ tr s h hmem
  intro l s e t _ ih hst hmem
  obtain hold | heq := mem_append.1 hmem
  · exact (listenerStep_flight hst).2.1.subset (ih hold)
  · obtain rfl : .accepted id res answer = e := by simpa using heq
    obtain ⟨-, rfl⟩ := of_ite_some hst
    simp [onComplete, act, not_lt.2 hres]

/-- **The listener's protocol**, in every run: any number of accepts and closes, and completions in any order. -/
theorem listener_protocol (h : run listenerStep {} tr = some s) : ListenerProtocol tr s := by
  obtain ⟨inv, hset⟩ := run_listenerInv h
  have hnodup : (s.answered ++ s.waiting).Nodup := inv.conserved.nodup_iff.1 inv.nodup
  have hdisj := disjoint_of_nodup_append hnodup
  refine ⟨⟨hnodup.of_append_left, fun c => ?_⟩, ⟨inv.closes, fun hacc => ?_⟩, fun hidle => ?_, run_delivered h⟩
  · rw [inv.mem_started_iff, xor_iff_or_and_not_and]
    exact ⟨fun hc => ⟨hc, fun hboth => hdisj hboth.1 hboth.2⟩, And.left⟩
  · by_contra hfd
    exact hacc (inv.held (by simpa using hfd)).2
  · have hnone := inv.pendingClose_eq_none hset hidle
    have hacc : s.accepting = [] := by simp_all [inFlight]
    refine ⟨by simp [waiting, hacc, hnone], fun hclosed => ?_, fun hfd => (inv.held hfd).1⟩
    by_contra hfd
    simpa [hnone] using inv.opened hclosed (by simpa using hfd)

/-- two accepts are in flight when the listener is closed; one fails, the other still brings a connection -/
def closingListener : List ListenerEvent :=
  [.accept 0 (.ok ()), .accept 1 (.ok ()), .close 0 (.ok ()) (.ok ()), .accepted 1 (-ECANCELED) (.ok ()),
    .cancelled 0 (.ok ()),
    .accepted 0 7 (.ok ())]

theorem listener_protocol_closing : ∃ s, run listenerStep {} closingListener = some s ∧
    ListenerProtocol closingListener s :=
  ⟨_, rfl, listener_protocol rfl⟩

theorem run_pendingClose (inv : ListenerInv [] s) (hset : s.Settled) (hid : .close id ∈ s.started)
    (h : run listenerStep s tr' = some t) : ListenerInv [] t ∧ t.Settled ∧ .close id ∈ t.started ∧
      (.close id ∈ t.answered ∨ t.inFlight + tr'.countP ListenerEvent.completes = s.inFlight) := by
  refine run_induct (fun l t => ListenerInv [] t ∧ t.Settled ∧ .close id ∈ t.started ∧
    (.close id ∈ t.answered ∨ t.inFlight + l.countP ListenerEvent.completes = s.inFlight))
    ⟨inv, hset, hid, .inr rfl⟩ ?_ tr' t h
  intro l u e v _ ih hst
  obtain ⟨hinv, hset, hid, hor⟩ := ih
  obtain ⟨hinv', hset'⟩ := step_listenerInv hinv hset hst
  obtain ⟨hstarted, hlog, hflight⟩ := listenerStep_flight hst
  refine ⟨hinv', hset', hstarted hid, ?_⟩
  by_cases hans : .close id ∈ u.answered
  · exact .inl ((hlog.filterMap _).subset hans)
  · have hclose : u.pendingClose = some id := by
      have hwait := ((hinv.mem_started_iff _).1 hid).resolve_left hans
      simpa [waiting] using hwait
    have hstep := hflight (hinv.pending id hclose).1 (by simp [hclose])
    have hcount := hor.resolve_left hans
    right
    rw [countP_append, countP_singleton]
    cases hc : e.completes <;> simp [hc] at hstep ⊢ <;> omega

/-- **A close is answered** when as many entries have completed as were in flight, whatever is called in the meantime.
-/
theorem close_answered (h : run listenerStep {} tr = some s) (hid : .close id ∈ s.started)
    (h' : run listenerStep s tr' = some t) (hall : s.inFlight ≤ tr'.countP ListenerEvent.completes) :
    .close id ∈ t.answered := by
  obtain ⟨inv, hset⟩ := run_listenerInv h
  obtain ⟨inv', hset', hid', hor⟩ := run_pendingClose inv hset hid h'
  by_contra hans
  have hidle : t.inFlight = 0 := by
    have := hor.resolve_left hans
    omega
  have hwait := ((inv'.mem_started_iff _).1 hid').resolve_left hans
  simp [waiting, inv'.pendingClose_eq_none hset' hidle] at hwait

theorem close_answered_closing : ∃ s t, run listenerStep {} (closingListener.take 3) = some s ∧ s.inFlight = 3 ∧
    run listenerStep s (closingListener.drop 3) = some t ∧ .close 0 ∈ t.answered :=
  ⟨_, _, rfl, rfl, rfl, close_answered (show run listenerStep {} (closingListener.take 3) = _ from rfl) (by decide)
    (show run listenerStep _ (closingListener.drop 3) = _ from rfl) (by decide)⟩

end Runs

end Coropact.Luring
