/-
`AddTimer` and `Cancel` on any thread (`TimerQueue::AddTimer`, `TimerQueue::Cancel` of `src/net/timer_queue.cc`, with
`RunInLoop`, `QueueInLoop` and `DoPendingFunctors` of `src/net/event_loop.cc`).

On the loop thread the functor of a call runs at once. On another thread it is queued, and the loop runs it later:
`DoPendingFunctors` swaps the queue into a vector of its own and runs that in order. A call of `AddTimer` on another
thread takes three steps here: it acquires the timer, queues the registration, and reads the sequence number back from
the timer's address to return it as the id. Between the last two the timer belongs to the loop.

The loop can register the timer, run it and release it before the read, and the address can have another timer by then,
whose number the call returns. Once the id is returned, a `Cancel` on the loop thread overtakes a registration that is
still queued.

Left out: the wakeups of the loop, the destructor of the queue, and what other functors do besides calling `AddTimer`
and `Cancel` on the loop thread, which they may at any time between two steps.
-/
import Coropact.Net.TimerQueue

namespace Coropact.Net

open Coropact.Machine List

/-! ## Model -/

inductive Functor where
  | register (slot : ℕ)
  | cancel (sequence : ℕ)
deriving DecidableEq, Repr

/-- a call of `AddTimer` on another thread that has acquired its timer -/
structure AddCall where
  slot : ℕ
  sequence : ℕ
  queued : Bool
deriving DecidableEq, Repr

structure TimerLoop where
  queue : TimerQueue := {}
  pendingFunctors : List Functor := []
  /-- the vector of `DoPendingFunctors`, from the functor that is next -/
  functors : List Functor := []
  calls : List AddCall := []
  /-- the calls of `AddTimer` that have returned: the sequence number of the timer they acquired, and the id -/
  returned : List (ℕ × ℕ) := []

inductive CallEvent where
  | loop (e : QueueEvent)
  -- on another thread
  | acquire (slot when : ℕ) (interval : ℚ) (sequence : ℕ)
  | queueRegistration (call : AddCall)
  /-- `junk` is what the read gives if the address is free -/
  | addTimerReturns (call : AddCall) (junk : ℕ)
  | queueCancel (sequence : ℕ)
  -- `DoPendingFunctors`
  | swap
  | runFunctor (now : ℕ)
deriving DecidableEq, Repr

/-- `t->sequence()` -/
def TimerQueue.readSequence (q : TimerQueue) (slot junk : ℕ) : ℕ := (q.pool.object slot).elim junk (·.sequence)

open TimerQueue

/-- what the loop does when no functor runs -/
def QueueEvent.ofPoll : QueueEvent → Bool
  | .handleRead _ _ => true
  | _ => false

def QueueEvent.ofDestructor : QueueEvent → Bool
  | .destroy | .destroyEarliest => true
  | _ => false

/-- what a call of `AddTimer` on the loop thread returns -/
def TimerQueue.returns (q : TimerQueue) : QueueEvent → List (ℕ × ℕ)
  | .addTimer slot _ _ sequence _ => [(sequence, q.readSequence slot 0)]
  | _ => []

def TimerLoop.loopStep (s : TimerLoop) (e : QueueEvent) : Option TimerLoop :=
  if e.ofDestructor ∨ (e.ofPoll ∧ s.functors ≠ []) then none
  else (queueStep s.queue e).map fun q => { s with queue := q, returned := s.returned ++ q.returns e }

/-- the functor is called, when the clock is at `now` -/
def TimerQueue.call (q : TimerQueue) (now : ℕ) : Functor → TimerQueue
  | .register slot => q.register slot now
  | .cancel sequence => q.cancel sequence

def callStep (s : TimerLoop) : CallEvent → Option TimerLoop
  | .loop e => s.loopStep e
  | .acquire slot when interval sequence =>
    (s.queue.acquire slot when interval sequence).map fun q => { s with
      queue := q, calls := ⟨slot, sequence, false⟩ :: s.calls }
  | .queueRegistration call =>
    if call ∈ s.calls ∧ call.queued = false then
      some { s with
        pendingFunctors := s.pendingFunctors ++ [.register call.slot]
        calls := { call with queued := true } :: s.calls.erase call }
    else none
  | .addTimerReturns call junk =>
    if call ∈ s.calls ∧ call.queued = true then
      some { s with
        calls := s.calls.erase call
        returned := s.returned ++ [(call.sequence, s.queue.readSequence call.slot junk)] }
    else none
  | .queueCancel sequence => some { s with pendingFunctors := s.pendingFunctors ++ [.cancel sequence] }
  | .swap =>
    if s.queue.phase = .idle ∧ s.functors = [] then some { s with functors := s.pendingFunctors, pendingFunctors := [] }
    else none
  | .runFunctor now =>
    match s.functors with
    | [] => none
    | f :: rest =>
      if s.queue.phase = .idle then some { s with functors := rest, queue := s.queue.call now f } else none

/-! ## Statements -/

def registrations (fs : List Functor) : List ℕ := fs.filterMap fun
  | .register slot => some slot
  | .cancel _ => none

/-- the `Cancel` that is executed on the loop thread in a step -/
def TimerLoop.executes (s : TimerLoop) : CallEvent → Option ℕ
  | .loop (.cancel sequence) => some sequence
  | .runFunctor _ =>
    match s.functors with
    | .cancel sequence :: _ => some sequence
    | _ => none
  | _ => none

/-- a `Cancel` is not executed while the registration of its timer is queued -/
def CancelInOrder (tr : List CallEvent) (e : CallEvent) : Prop :=
  ∀ s ∈ run callStep {} tr, ∀ sequence ∈ s.executes e,
    ∀ p ∈ registrations (s.functors ++ s.pendingFunctors), (s.queue.timer p).sequence ≠ sequence

instance (tr : List CallEvent) (e : CallEvent) : Decidable (CancelInOrder tr e) :=
  inferInstanceAs (Decidable (∀ s ∈ run callStep {} tr, ∀ sequence ∈ s.executes e,
    ∀ p ∈ registrations (s.functors ++ s.pendingFunctors), (s.queue.timer p).sequence ≠ sequence))

/-- no timer is released while the `AddTimer` that acquired it has not returned -/
def ReturnsFirst (tr : List CallEvent) (e : CallEvent) : Prop :=
  ∀ s ∈ run callStep {} tr, ∀ t ∈ callStep s e, ∀ c ∈ s.calls,
    (s.queue.pool.object c.slot).isSome → (t.queue.pool.object c.slot).isSome

instance (tr : List CallEvent) (e : CallEvent) : Decidable (ReturnsFirst tr e) :=
  inferInstanceAs (Decidable (∀ s ∈ run callStep {} tr, ∀ t ∈ callStep s e, ∀ c ∈ s.calls,
    (s.queue.pool.object c.slot).isSome → (t.queue.pool.object c.slot).isSome))

/-! ## The pool over time -/

variable {e : QueueEvent} {k p sequence when : ℕ} {interval : ℚ}

section Queue

variable {waiting : List ℕ} {q t : TimerQueue}

theorem QueueInv.perm {waiting' : List ℕ} (inv : QueueInv waiting q) (hp : waiting.Perm waiting') :
    QueueInv waiting' q :=
  ⟨inv.pool.perm ((hp.append_left _).append_left _), inv.fresh, inv.active, inv.sorted, inv.processing, inv.armed⟩

theorem QueueInv.register_pool (inv : QueueInv (p :: waiting) q) (now : ℕ) :
    (q.register p now).pool = q.pool := by
  rw [inv.register_eq]
  split_ifs <;> rfl

theorem QueueInv.cancel_next (inv : QueueInv waiting q) (sequence : ℕ) :
    Pool.Next Timer.sequence q.pool (q.cancel sequence).pool := by
  rcases inv.cancel_out sequence with ⟨p, -, -, heq⟩ | ⟨p, -, -, heq⟩ | ⟨-, heq⟩ <;> rw [heq]
  · exact Pool.Next.release _ p
  · exact Pool.Next.refl _
  · exact Pool.Next.refl _

theorem queueStep_next (inv : QueueInv waiting q) (h : queueStep q e = some t) :
    Pool.Next Timer.sequence q.pool t.pool := by
  cases e with
  | addTimer slot when interval sequence now =>
    obtain ⟨-, h⟩ := Option.ite_none_right_eq_some.1 h
    obtain ⟨q₁, hacquire, rfl⟩ := Option.map_eq_some_iff.1 h
    obtain ⟨inv₁, hfree, -, rfl⟩ := inv.acquire hacquire
    rw [inv₁.register_pool]
    exact Pool.Next.acquire hfree _
  | cancel sequence =>
    obtain ⟨-, rfl⟩ := of_ite_some h
    exact inv.cancel_next sequence
  | handleRead now expired =>
    obtain ⟨-, rfl⟩ := handleRead_some h
    exact Pool.Next.refl _
  | pop =>
    obtain ⟨now, -, hpop⟩ := pop_some h
    obtain ⟨p, -, -, rfl⟩ := inv.pop_out hpop
    exact Pool.Next.refl _
  | callbackReturns =>
    obtain ⟨now, p, hphase, rfl⟩ := callbackReturns_some h
    rw [inv.callbackReturns_out hphase]
    split_ifs
    · exact Pool.Next.set rfl
    · exact Pool.Next.release _ p
  | passEnds clock =>
    obtain ⟨now, -, hends⟩ := passEnds_some h
    obtain rfl := inv.passEnds_out hends
    exact Pool.Next.refl _
  | destroy =>
    obtain ⟨-, rfl⟩ := of_ite_some h
    exact Pool.Next.refl _
  | destroyEarliest =>
    obtain ⟨-, h⟩ := Option.ite_none_right_eq_some.1 h
    obtain ⟨p, -, rfl⟩ := inv.destroyEarliest_out h
    exact Pool.Next.release _ p

/-! ## A timer that is gone -/

/-- the timer was released, or was cancelled in its callback, which still runs -/
def TimerQueue.Gone (q : TimerQueue) (k : ℕ) : Prop :=
  k ∈ q.pool.released ∨
    ∃ p, q.processingTimer = some p ∧ (q.timer p).sequence = k ∧ q.processingTimerCancelled = true

theorem Gone.of_next (h : q.Gone k) (inv : QueueInv waiting q) (hnext : Pool.Next Timer.sequence q.pool t.pool)
    (hprocessing : t.processingTimer = q.processingTimer)
    (hcancelled : q.processingTimerCancelled = true → t.processingTimerCancelled = true) : t.Gone k := by
  rcases h with hrel | ⟨p, hp, hseq, hflag⟩
  · exact .inl (hnext.released hrel)
  · have hmem : p ∈ q.slots waiting := mem_slots_processing hp
    have hobject := inv.pool.object_eq hmem
    rcases hnext.object p _ hobject with ⟨x, hx, htag⟩ | ⟨hrel, -⟩
    · refine .inr ⟨p, hprocessing.trans hp, ?_, hcancelled hflag⟩
      rw [timer, Pool.get_of_object hx, htag]
      exact hseq
    · exact .inl (hseq ▸ hrel)

theorem Gone.acquire (h : q.Gone k) (inv : QueueInv waiting q)
    (hacquire : q.acquire p when interval sequence = some t) :
    t.Gone k ∧ t.started = q.started := by
  obtain ⟨-, hfree, -, rfl⟩ := inv.acquire hacquire
  exact ⟨Gone.of_next h inv (Pool.Next.acquire hfree _) rfl id, rfl⟩

theorem Gone.register (h : q.Gone k) (inv : QueueInv (p :: waiting) q) (now : ℕ) :
    (q.register p now).Gone k ∧ (q.register p now).started = q.started := by
  rw [inv.register_eq]
  split_ifs
  · exact ⟨Gone.of_next h inv (Pool.Next.refl _) rfl id, rfl⟩
  · exact ⟨Gone.of_next h inv (Pool.Next.refl _) rfl id, rfl⟩

theorem Gone.cancel (h : q.Gone k) (inv : QueueInv waiting q) (sequence : ℕ) :
    (q.cancel sequence).Gone k ∧ (q.cancel sequence).started = q.started := by
  have hnext := inv.cancel_next sequence
  rcases inv.cancel_out sequence with ⟨p, -, -, heq⟩ | ⟨p, -, -, heq⟩ | ⟨-, heq⟩ <;> rw [heq] at hnext ⊢
  · exact ⟨Gone.of_next h inv hnext rfl id, rfl⟩
  · exact ⟨Gone.of_next h inv hnext rfl fun _ => rfl, rfl⟩
  · exact ⟨h, rfl⟩

theorem Gone.queueStep (h : q.Gone k) (inv : QueueInv waiting q) (hst : queueStep q e = some t) :
    t.Gone k ∧ t.started.count k = q.started.count k := by
  have hnext := queueStep_next inv hst
  cases e with
  | addTimer slot when interval sequence now =>
    obtain ⟨-, hst⟩ := Option.ite_none_right_eq_some.1 hst
    obtain ⟨q₁, hacquire, rfl⟩ := Option.map_eq_some_iff.1 hst
    obtain ⟨h₁, hstarted₁⟩ := Gone.acquire h inv hacquire
    obtain ⟨h₂, hstarted₂⟩ := Gone.register h₁ (inv.acquire hacquire).1 now
    exact ⟨h₂, by rw [hstarted₂, hstarted₁]⟩
  | cancel sequence =>
    obtain ⟨-, rfl⟩ := of_ite_some hst
    exact (Gone.cancel h inv sequence).imp id (congrArg (List.count k))
  | handleRead now expired =>
    obtain ⟨-, rfl⟩ := handleRead_some hst
    exact ⟨Gone.of_next h inv hnext rfl id, rfl⟩
  | pop =>
    obtain ⟨now, hphase, hpop⟩ := pop_some hst
    obtain ⟨p, hp, -, rfl⟩ := inv.pop_out hpop
    have hrel : k ∈ q.pool.released := by
      rcases h with hrel | ⟨p', hp', -⟩
      · exact hrel
      · rw [inv.processing, hphase] at hp'
        cases hp'
    -- the timer that starts is registered, so it was not released
    have hne : (q.timer p).sequence ≠ k := fun heq => (inv.pool.tag_mem (mem_slots hp)).2 (heq.symm ▸ hrel)
    refine ⟨.inl hrel, ?_⟩
    rw [count_append, count_singleton, if_neg (by simpa using hne), Nat.add_zero]
  | callbackReturns =>
    obtain ⟨now, p, hphase, rfl⟩ := callbackReturns_some hst
    have hgone : (q.callbackReturns now p).Gone k := by
      rcases h with hrel | ⟨p', hp', hseq, hflag⟩
      · exact .inl (hnext.released hrel)
      · -- the timer that was cancelled in its callback is released
        rw [inv.processing, hphase] at hp'
        obtain rfl : p = p' := Option.some.inj hp'
        rw [inv.callbackReturns_out hphase, if_neg (by simp [hflag])]
        exact .inl (mem_append_right _ (mem_singleton.2 hseq.symm))
    refine ⟨hgone, ?_⟩
    rw [inv.callbackReturns_out hphase]
    split_ifs <;> rfl
  | passEnds clock =>
    obtain ⟨now, -, hends⟩ := passEnds_some hst
    obtain rfl := inv.passEnds_out hends
    exact ⟨Gone.of_next h inv hnext rfl id, rfl⟩
  | destroy =>
    obtain ⟨-, rfl⟩ := of_ite_some hst
    exact ⟨Gone.of_next h inv hnext rfl id, rfl⟩
  | destroyEarliest =>
    obtain ⟨-, hst⟩ := Option.ite_none_right_eq_some.1 hst
    obtain ⟨p, -, rfl⟩ := inv.destroyEarliest_out hst
    exact ⟨Gone.of_next h inv hnext rfl id, rfl⟩

end Queue

/-! ## The calls in progress -/

/-- the timers that are acquired and not registered -/
def TimerLoop.waiting (s : TimerLoop) : List ℕ :=
  (s.calls.filter fun c => !c.queued).map AddCall.slot ++ registrations (s.functors ++ s.pendingFunctors)

/-- the timer `k` is at this address, or it was released -/
def TimerQueue.Tracks (q : TimerQueue) (slot k : ℕ) : Prop :=
  (∃ x, q.pool.object slot = some x ∧ x.sequence = k) ∨ k ∈ q.pool.released

structure CallInv (s : TimerLoop) : Prop where
  queue : QueueInv s.waiting s.queue
  calls : ∀ c ∈ s.calls, c.sequence ∈ s.queue.pool.acquired ∧ s.queue.Tracks c.slot c.sequence
  unqueued : ∀ c ∈ s.calls, c.queued = false → (s.queue.timer c.slot).sequence = c.sequence
  nodup : (s.calls.map AddCall.sequence).Nodup
  /-- if a call got another id than its own, its timer is gone -/
  returned : ∀ r ∈ s.returned, r.1 ∈ s.queue.pool.acquired ∧ (r.2 = r.1 ∨ r.1 ∈ s.queue.pool.released)
  distinct : ∀ c ∈ s.calls, ∀ r ∈ s.returned, c.sequence ≠ r.1

section Calls

variable {s t : TimerLoop}

variable {q q' : TimerQueue} {waiting : List ℕ} {c : AddCall} {slot now : ℕ}

theorem Tracks.next (h : q.Tracks slot k) (hnext : Pool.Next Timer.sequence q.pool q'.pool) : q'.Tracks slot k := by
  rcases h with ⟨x, hx, rfl⟩ | hrel
  · exact (hnext.object slot x hx).imp id And.left
  · exact .inr (hnext.released hrel)

theorem mem_waiting (hc : c ∈ s.calls) (hqueued : c.queued = false) : c.slot ∈ s.waiting :=
  mem_append_left _ (mem_map_of_mem (mem_filter.2 ⟨hc, by simp [hqueued]⟩))

theorem CallInv.advance (inv : CallInv s) (hcalls : t.calls = s.calls) (hreturned : t.returned = s.returned)
    (hqueue : QueueInv t.waiting t.queue) (hnext : Pool.Next Timer.sequence s.queue.pool t.queue.pool) : CallInv t := by
  refine ⟨hqueue, ?_, ?_, hcalls ▸ inv.nodup, ?_, ?_⟩
  · rw [hcalls]
    exact fun c hc => (inv.calls c hc).imp (fun h => hnext.acquired h) fun h => Tracks.next h hnext
  · intro c hc hunqueued
    have hold : c ∈ s.calls := hcalls ▸ hc
    have hbefore := inv.queue.pool.object_eq
      (mem_append_right _ (mem_append_right _ (mem_waiting hold hunqueued)))
    have hafter := hqueue.pool.object_eq
      (mem_append_right _ (mem_append_right _ (mem_waiting hc hunqueued)))
    rcases hnext.object c.slot _ hbefore with ⟨x, hx, htag⟩ | ⟨-, hnone⟩
    · rw [timer, Pool.get_of_object hx, htag]
      exact inv.unqueued c hold hunqueued
    · rw [hnone] at hafter
      cases hafter
  · rw [hreturned]
    exact fun r hr => (inv.returned r hr).imp (fun h => hnext.acquired h) fun h => h.imp id fun h => hnext.released h
  · rw [hcalls, hreturned]
    exact inv.distinct

theorem CallInv.addReturned (inv : CallInv s) {own id : ℕ} (hown : own ∈ s.queue.pool.acquired)
    (hid : id = own ∨ own ∈ s.queue.pool.released) (hdistinct : ∀ c ∈ s.calls, c.sequence ≠ own) :
    CallInv { s with returned := s.returned ++ [(own, id)] } := by
  refine ⟨inv.queue, inv.calls, inv.unqueued, inv.nodup, fun r hr => ?_, fun c hc r hr => ?_⟩
  · rcases mem_append.1 hr with hr | hr
    · exact inv.returned r hr
    · rw [mem_singleton.1 hr]
      exact ⟨hown, hid⟩
  · rcases mem_append.1 hr with hr | hr
    · exact inv.distinct c hc r hr
    · rw [mem_singleton.1 hr]
      exact hdistinct c hc

theorem loopStep_some (h : s.loopStep e = some t) : ∃ q, queueStep s.queue e = some q ∧
    t = { s with queue := q, returned := s.returned ++ q.returns e } := by
  obtain ⟨-, h⟩ := Option.ite_none_left_eq_some.1 h
  obtain ⟨q, hq, rfl⟩ := Option.map_eq_some_iff.1 h
  exact ⟨q, hq, rfl⟩

theorem addTimer_read (inv : QueueInv waiting q)
    (h : queueStep q (.addTimer slot when interval sequence now) = some q') :
    q'.readSequence slot 0 = sequence ∧ sequence ∈ q'.pool.acquired ∧ sequence ∉ q.pool.acquired := by
  obtain ⟨-, h⟩ := Option.ite_none_right_eq_some.1 h
  obtain ⟨q₁, hacquire, rfl⟩ := Option.map_eq_some_iff.1 h
  obtain ⟨inv₁, -, hnew, rfl⟩ := inv.acquire hacquire
  have hobject := Pool.object_acquire Timer.sequence q.pool slot ⟨when, interval, sequence⟩
  rw [readSequence, inv₁.register_pool]
  dsimp only
  rw [hobject]
  exact ⟨rfl, mem_append_right _ (mem_singleton_self _), hnew⟩

theorem CallInv.loopStep (inv : CallInv s) (h : s.loopStep e = some t) : CallInv t := by
  obtain ⟨q, hq, rfl⟩ := loopStep_some h
  have inv' : CallInv { s with queue := q } :=
    inv.advance rfl rfl (queueStep_inv inv.queue hq) (queueStep_next inv.queue hq)
  cases e with
  | addTimer slot when interval sequence now =>
    obtain ⟨hread, hmem, hnew⟩ := addTimer_read inv.queue hq
    exact inv'.addReturned hmem (.inl hread) fun c hc heq => hnew (heq ▸ (inv.calls c hc).1)
  | _ =>
    show CallInv { s with queue := q, returned := s.returned ++ [] }
    rwa [append_nil]

theorem CallInv.acquire (inv : CallInv s) (h : s.queue.acquire slot when interval sequence = some q) :
    CallInv { s with queue := q, calls := ⟨slot, sequence, false⟩ :: s.calls } := by
  obtain ⟨hqueue, hfree, hnew, rfl⟩ := inv.queue.acquire h
  have hnext : Pool.Next Timer.sequence s.queue.pool
      (s.queue.pool.acquire Timer.sequence slot ⟨when, interval, sequence⟩) := Pool.Next.acquire hfree _
  have hself := Pool.object_acquire Timer.sequence s.queue.pool slot ⟨when, interval, sequence⟩
  refine ⟨hqueue, fun c hc => ?_, fun c hc hunqueued => ?_, ?_, fun r hr => ?_, fun c hc r hr => ?_⟩
  · rcases mem_cons.1 hc with rfl | hc
    · exact ⟨mem_append_right _ (mem_singleton_self _), .inl ⟨_, hself, rfl⟩⟩
    · exact (inv.calls c hc).imp (fun h => hnext.acquired h) fun h => Tracks.next h hnext
  · rcases mem_cons.1 hc with rfl | hc
    · rw [timer, Pool.get_of_object hself]
    · have hlive := inv.queue.pool.object_eq
        (mem_append_right _ (mem_append_right _ (mem_waiting hc hunqueued)))
      rw [timer, Pool.get_of_update rfl fun heq => by rw [heq, hfree] at hlive; cases hlive]
      exact inv.unqueued c hc hunqueued
  · exact nodup_cons.2 ⟨fun hmem => by
      obtain ⟨c, hc, heq⟩ := mem_map.1 hmem
      exact hnew ((show c.sequence = sequence from heq) ▸ (inv.calls c hc).1), inv.nodup⟩
  · exact (inv.returned r hr).imp (fun h => hnext.acquired h) id
  · rcases mem_cons.1 hc with rfl | hc
    · exact fun heq => hnew ((show sequence = r.1 from heq) ▸ (inv.returned r hr).1)
    · exact inv.distinct c hc r hr

theorem nodup_erase_call (inv : CallInv s) (hc : c ∈ s.calls) :
    (c.sequence :: (s.calls.erase c).map AddCall.sequence).Nodup :=
  ((perm_cons_erase hc).map AddCall.sequence).nodup_iff.1 inv.nodup

theorem CallInv.queueRegistration (inv : CallInv s) (hc : c ∈ s.calls) (hqueued : c.queued = false) :
    CallInv { s with
      pendingFunctors := s.pendingFunctors ++ [.register c.slot]
      calls := { c with queued := true } :: s.calls.erase c } := by
  have hmem : ∀ d ∈ { c with queued := true } :: s.calls.erase c, d = { c with queued := true } ∨ d ∈ s.calls :=
    fun d hd => (mem_cons.1 hd).imp id mem_of_mem_erase
  refine ⟨inv.queue.perm ?_, fun d hd => ?_, fun d hd hunqueued => ?_, nodup_erase_call inv hc, inv.returned,
    fun d hd r hr => ?_⟩
  · -- the slot of the call moves from the calls to the queued registrations
    have hcalls : (s.calls.filter fun d => !d.queued).Perm (c :: (s.calls.erase c).filter fun d => !d.queued) := by
      have hperm := (perm_cons_erase hc).filter fun d => !d.queued
      rwa [filter_cons_of_pos (by simp [hqueued])] at hperm
    have hregistrations : registrations (s.functors ++ (s.pendingFunctors ++ [.register c.slot])) =
        registrations (s.functors ++ s.pendingFunctors) ++ [c.slot] := by
      simp [registrations]
    unfold TimerLoop.waiting
    rw [hregistrations, filter_cons_of_neg (by simp)]
    refine ((hcalls.map AddCall.slot).append_right _).trans ?_
    rw [map_cons, cons_append, ← append_assoc]
    exact (perm_append_singleton _ _).symm
  · rcases hmem d hd with rfl | hd
    · exact inv.calls c hc
    · exact inv.calls d hd
  · rcases hmem d hd with rfl | hd
    · cases hunqueued
    · exact inv.unqueued d hd hunqueued
  · rcases hmem d hd with rfl | hd
    · exact inv.distinct c hc r hr
    · exact inv.distinct d hd r hr

theorem CallInv.addTimerReturns (inv : CallInv s) (hc : c ∈ s.calls) (hqueued : c.queued = true) (junk : ℕ) :
    CallInv { s with
      calls := s.calls.erase c
      returned := s.returned ++ [(c.sequence, s.queue.readSequence c.slot junk)] } := by
  obtain ⟨hnot, hnodup⟩ := nodup_cons.1 (nodup_erase_call inv hc)
  have inv' : CallInv { s with calls := s.calls.erase c } := by
    refine ⟨inv.queue.perm ?_, fun d hd => inv.calls d (mem_of_mem_erase hd),
      fun d hd => inv.unqueued d (mem_of_mem_erase hd), hnodup, inv.returned,
      fun d hd => inv.distinct d (mem_of_mem_erase hd)⟩
    have hperm := (perm_cons_erase hc).filter fun d => !d.queued
    rw [filter_cons_of_neg (by simp [hqueued])] at hperm
    exact (hperm.map AddCall.slot).append_right _
  refine inv'.addReturned (inv.calls c hc).1 ?_ fun d hd heq => hnot (heq ▸ mem_map_of_mem hd)
  rcases (inv.calls c hc).2 with ⟨x, hx, hseq⟩ | hrel
  · rw [readSequence, hx]
    exact .inl hseq
  · exact .inr hrel

theorem runFunctor_some (h : callStep s (.runFunctor now) = some t) :
    ∃ f rest, s.functors = f :: rest ∧ t = { s with functors := rest, queue := s.queue.call now f } := by
  simp only [callStep] at h
  split at h
  · cases h
  · rename_i f rest hf
    obtain ⟨-, rfl⟩ := of_ite_some h
    exact ⟨f, rest, hf, rfl⟩

theorem waiting_perm_register {rest : List Functor} (h : s.functors = .register slot :: rest) (q : TimerQueue) :
    s.waiting.Perm (slot :: TimerLoop.waiting { s with functors := rest, queue := q }) := by
  unfold TimerLoop.waiting
  rw [h]
  exact perm_middle

theorem waiting_cancel {rest : List Functor} (h : s.functors = .cancel sequence :: rest) (q : TimerQueue) :
    TimerLoop.waiting { s with functors := rest, queue := q } = s.waiting := by
  unfold TimerLoop.waiting
  rw [h]
  rfl

theorem CallInv.runFunctor (inv : CallInv s) (h : callStep s (.runFunctor now) = some t) : CallInv t := by
  obtain ⟨f, rest, hf, rfl⟩ := runFunctor_some h
  cases f with
  | register slot =>
    have hqueue := inv.queue.perm (waiting_perm_register hf (s.queue.register slot now))
    refine inv.advance rfl rfl (hqueue.register now) ?_
    exact (hqueue.register_pool now).symm ▸ Pool.Next.refl _
  | cancel sequence =>
    refine inv.advance rfl rfl ?_ (inv.queue.cancel_next sequence)
    rw [waiting_cancel hf]
    exact inv.queue.cancel sequence

theorem callStep_inv {e : CallEvent} (inv : CallInv s) (h : callStep s e = some t) : CallInv t := by
  cases e with
  | loop e => exact inv.loopStep h
  | acquire slot when interval sequence =>
    obtain ⟨q, hq, rfl⟩ := Option.map_eq_some_iff.1 h
    exact inv.acquire hq
  | queueRegistration call =>
    obtain ⟨⟨hc, hqueued⟩, rfl⟩ := of_ite_some h
    exact inv.queueRegistration hc hqueued
  | addTimerReturns call junk =>
    obtain ⟨⟨hc, hqueued⟩, rfl⟩ := of_ite_some h
    exact inv.addTimerReturns hc hqueued junk
  | queueCancel sequence =>
    obtain rfl := Option.some.inj h
    refine inv.advance rfl rfl (inv.queue.perm ?_) (Pool.Next.refl _)
    rw [TimerLoop.waiting, TimerLoop.waiting]
    simp [registrations]
  | swap =>
    obtain ⟨⟨-, hempty⟩, rfl⟩ := of_ite_some h
    refine inv.advance rfl rfl (inv.queue.perm ?_) (Pool.Next.refl _)
    rw [TimerLoop.waiting, TimerLoop.waiting, hempty]
    simp
  | runFunctor now => exact inv.runFunctor h

theorem init_callInv : CallInv {} where
  queue := init_queueInv
  calls _ hc := by cases hc
  unqueued _ hc := by cases hc
  nodup := nodup_nil
  returned _ hr := by cases hr
  distinct _ hc := by cases hc

theorem run_callInv : ∀ (tr : List CallEvent) (s : TimerLoop), run callStep {} tr = some s → CallInv s :=
  run_induct (fun _ s => CallInv s) init_callInv fun _ _ _ _ _ inv hst => callStep_inv inv hst

/-- what a step of any thread may do to the timer queue -/
inductive QueueChange (q : TimerQueue) : TimerQueue → Prop
  | same : QueueChange q q
  | step (e : QueueEvent) {t : TimerQueue} (h : queueStep q e = some t) : QueueChange q t
  | acquire {slot when sequence : ℕ} {interval : ℚ} {t : TimerQueue}
      (h : q.acquire slot when interval sequence = some t) :
      QueueChange q t
  | register {waiting : List ℕ} {slot : ℕ} (inv : QueueInv (slot :: waiting) q) (now : ℕ) :
      QueueChange q (q.register slot now)
  | cancel (sequence : ℕ) : QueueChange q (q.cancel sequence)

theorem callStep_change {e : CallEvent} (inv : CallInv s) (h : callStep s e = some t) :
    QueueChange s.queue t.queue := by
  cases e with
  | loop e =>
    obtain ⟨q, hq, rfl⟩ := loopStep_some h
    exact .step e hq
  | acquire slot when interval sequence =>
    obtain ⟨q, hq, rfl⟩ := Option.map_eq_some_iff.1 h
    exact .acquire hq
  | queueRegistration call | addTimerReturns call junk | swap =>
    obtain ⟨-, rfl⟩ := of_ite_some h
    exact .same
  | queueCancel sequence =>
    obtain rfl := Option.some.inj h
    exact .same
  | runFunctor now =>
    obtain ⟨f, rest, hf, rfl⟩ := runFunctor_some h
    cases f with
    | register slot => exact .register (inv.queue.perm (waiting_perm_register hf (s.queue.register slot now))) now
    | cancel sequence => exact .cancel sequence

theorem QueueChange.next (h : QueueChange q q') (inv : QueueInv waiting q) :
    Pool.Next Timer.sequence q.pool q'.pool := by
  cases h with
  | same => exact Pool.Next.refl _
  | step e h => exact queueStep_next inv h
  | acquire h =>
    obtain ⟨-, hfree, -, rfl⟩ := inv.acquire h
    exact Pool.Next.acquire hfree _
  | register inv' now => exact (inv'.register_pool now).symm ▸ Pool.Next.refl _
  | cancel sequence => exact inv.cancel_next sequence

/-! ## Cancelling -/

theorem Gone.change (h : q.Gone k) (inv : QueueInv waiting q) (hchange : QueueChange q q') :
    q'.Gone k ∧ q'.started.count k = q.started.count k := by
  cases hchange with
  | same => exact ⟨h, rfl⟩
  | step e hst => exact Gone.queueStep h inv hst
  | acquire hacquire => exact (Gone.acquire h inv hacquire).imp id (congrArg (List.count k))
  | register inv' now => exact (Gone.register h inv' now).imp id (congrArg (List.count k))
  | cancel sequence => exact (Gone.cancel h inv sequence).imp id (congrArg (List.count k))

theorem run_gone (inv : CallInv s) (h : s.queue.Gone k) : ∀ (tr : List CallEvent) (t : TimerLoop),
    run callStep s tr = some t → t.queue.started.count k = s.queue.started.count k := by
  intro tr t hrun
  have hkeep := run_induct
    (fun _ t => CallInv t ∧ t.queue.Gone k ∧ t.queue.started.count k = s.queue.started.count k) ⟨inv, h, rfl⟩
    (fun _ t e u _ ⟨inv, h, hcount⟩ hst => by
      obtain ⟨h', hcount'⟩ := Gone.change h inv.queue (callStep_change inv hst)
      exact ⟨callStep_inv inv hst, h', hcount'.trans hcount⟩) tr t hrun
  exact hkeep.2.2

theorem executes_some {e : CallEvent} (hexec : s.executes e = some k) (hst : callStep s e = some t) :
    t.queue = s.queue.cancel k := by
  unfold TimerLoop.executes at hexec
  split at hexec
  · obtain rfl := Option.some.inj hexec
    obtain ⟨q, hq, rfl⟩ := loopStep_some hst
    exact (of_ite_some hq).2.symm
  · split at hexec
    · rename_i hf
      obtain rfl := Option.some.inj hexec
      obtain ⟨f, rest, hf', rfl⟩ := runFunctor_some hst
      rw [hf] at hf'
      cases hf'
      rfl
    · cases hexec
  · cases hexec

theorem gone_cancel (inv : QueueInv waiting q) (hk : k ∈ q.pool.acquired)
    (hnot : ∀ p ∈ waiting, (q.timer p).sequence ≠ k) :
    (q.cancel k).Gone k := by
  rcases inv.cancel_out k with ⟨p, -, hseq, heq⟩ | ⟨p, hp, hseq, heq⟩ | ⟨hnone, heq⟩ <;> rw [heq]
  · exact .inl (mem_append_right _ (mem_singleton.2 hseq.symm))
  · exact .inr ⟨p, hp, hseq, rfl⟩
  · rcases inv.pool.held_or_released hk with ⟨p, hp, hseq⟩ | hrel
    · rw [slots, ← append_assoc] at hp
      rcases mem_append.1 hp with hp | hp
      · exact absurd hseq (hnone p hp)
      · exact absurd hseq (hnot p hp)
    · exact .inl hrel

/-- **Cancel is effective** if its timer's registration is not queued when it is executed: the callback is not started
again, in any continuation. -/
theorem cancel_effective {l r : List CallEvent} {e : CallEvent} {own id : ℕ} {u : TimerLoop}
    (hl : run callStep {} l = some s) (hid : (own, id) ∈ s.returned) (hexec : s.executes e = some id)
    (horder : CancelInOrder l e) (he : callStep s e = some t) (hr : run callStep t r = some u) :
    u.queue.started.count own = t.queue.started.count own := by
  have inv := run_callInv l s hl
  obtain ⟨hacquired, hown⟩ := inv.returned _ hid
  refine run_gone (callStep_inv inv he) ?_ r u hr
  by_cases hreleased : own ∈ s.queue.pool.released
  · exact (Gone.change (.inl hreleased) inv.queue (callStep_change inv he)).1
  · obtain rfl : id = own := hown.resolve_right hreleased
    rw [executes_some hexec he]
    refine gone_cancel inv.queue hacquired fun p hp => ?_
    rcases mem_append.1 hp with hp | hp
    · -- the call that waits is another one, since this one has returned
      obtain ⟨c, hc, rfl⟩ := mem_map.1 hp
      obtain ⟨hc, hunqueued⟩ := mem_filter.1 hc
      rw [inv.unqueued c hc (by simpa using hunqueued)]
      exact inv.distinct c hc _ hid
    · exact horder s hl id hexec p hp

/-- the timer of a call on another thread, which fires every second, is cancelled in its callback -/
def cancelledRun : List CallEvent :=
  [.acquire 0 1000 1 5, .queueRegistration ⟨0, 5, false⟩, .addTimerReturns ⟨0, 5, true⟩ 0, .swap, .runFunctor 10,
   .loop (.handleRead 1000 true), .loop .pop]

theorem cancel_effective_cancelledRun : ∃ s t u, run callStep {} cancelledRun = some s ∧ (5, 5) ∈ s.returned ∧
    callStep s (.loop (.cancel 5)) = some t ∧
    run callStep t [.loop .callbackReturns, .loop (.passEnds 2000), .loop (.handleRead 2000000 false)] = some u ∧
    u.queue.started.count 5 = t.queue.started.count 5 := by
  have hfacts : ∃ s ∈ run callStep {} cancelledRun, (5, 5) ∈ s.returned ∧ s.executes (.loop (.cancel 5)) = some 5 ∧
      ∃ t ∈ callStep s (.loop (.cancel 5)),
        (run callStep t [.loop .callbackReturns, .loop (.passEnds 2000),
          .loop (.handleRead 2000000 false)]).isSome := by
    decide +kernel
  have horder : CancelInOrder cancelledRun (.loop (.cancel 5)) := by decide +kernel
  obtain ⟨s, hs, hid, hexec, t, ht, hu⟩ := hfacts
  obtain ⟨u, hu⟩ := Option.isSome_iff_exists.1 hu
  exact ⟨s, t, u, hs, hid, ht, hu, cancel_effective hs hid hexec horder ht hu⟩

/-- **A Cancel that overtakes the registration is lost.** A call on another thread has returned the id, the loop thread
cancels it before it runs the registration, and the callback starts all the same. -/
theorem cancel_overtakes_registration : ∃ l r s t u, run callStep {} l = some s ∧ (5, 5) ∈ s.returned ∧
    s.executes (.loop (.cancel 5)) = some 5 ∧ callStep s (.loop (.cancel 5)) = some t ∧ run callStep t r = some u ∧
    t.queue.started.count 5 = 0 ∧ u.queue.started.count 5 = 1 := by
  have hfacts : ∃ s ∈ run callStep {} [.acquire 0 1000 0 5, .queueRegistration ⟨0, 5, false⟩,
        .addTimerReturns ⟨0, 5, true⟩ 0],
      (5, 5) ∈ s.returned ∧ s.executes (.loop (.cancel 5)) = some 5 ∧
      ∃ t ∈ callStep s (.loop (.cancel 5)),
        ∃ u ∈ run callStep t [.swap, .runFunctor 10, .loop (.handleRead 1000 true), .loop .pop],
          t.queue.started.count 5 = 0 ∧ u.queue.started.count 5 = 1 := by
    decide +kernel
  obtain ⟨s, hs, hid, hexec, t, ht, u, hu, hbefore, hafter⟩ := hfacts
  exact ⟨_, _, s, t, u, hs, hid, hexec, ht, hu, hbefore, hafter⟩

/-! ## The id that is returned -/

/-- the timer of each call in progress is at its address, and each id returned is that of the call's timer -/
structure OwnIds (s : TimerLoop) : Prop where
  calls : ∀ c ∈ s.calls, ∃ x, s.queue.pool.object c.slot = some x ∧ x.sequence = c.sequence
  returned : ∀ r ∈ s.returned, r.2 = r.1

theorem OwnIds.callStep {e : CallEvent} (h : OwnIds s) (inv : CallInv s) (hst : callStep s e = some t)
    (hfirst : ∀ c ∈ s.calls, (s.queue.pool.object c.slot).isSome → (t.queue.pool.object c.slot).isSome) : OwnIds t := by
  have hkeep : ∀ c ∈ s.calls, ∃ x, t.queue.pool.object c.slot = some x ∧ x.sequence = c.sequence := by
    intro c hc
    obtain ⟨x, hx, hseq⟩ := h.calls c hc
    rcases ((callStep_change inv hst).next inv.queue).object c.slot x hx with ⟨y, hy, htag⟩ | ⟨-, hnone⟩
    · exact ⟨y, hy, htag.trans hseq⟩
    · have hlive := hfirst c hc (by rw [hx]; rfl)
      rw [hnone] at hlive
      cases hlive
  cases e with
  | loop e =>
    obtain ⟨q, hq, rfl⟩ := loopStep_some hst
    refine ⟨hkeep, fun r hr => ?_⟩
    rcases mem_append.1 hr with hr | hr
    · exact h.returned r hr
    · cases e with
      | addTimer slot when interval sequence now =>
        rw [mem_singleton.1 hr]
        exact (addTimer_read inv.queue hq).1
      | _ => cases hr
  | acquire slot when interval sequence =>
    obtain ⟨q, hq, rfl⟩ := Option.map_eq_some_iff.1 hst
    obtain ⟨-, -, -, rfl⟩ := inv.queue.acquire hq
    refine ⟨fun c hc => ?_, h.returned⟩
    rcases mem_cons.1 hc with rfl | hc
    · exact ⟨_, Pool.object_acquire Timer.sequence s.queue.pool slot ⟨when, interval, sequence⟩, rfl⟩
    · exact hkeep c hc
  | queueRegistration call =>
    obtain ⟨⟨hcall, -⟩, rfl⟩ := of_ite_some hst
    refine ⟨fun c hc => ?_, h.returned⟩
    rcases mem_cons.1 hc with rfl | hc
    · exact h.calls call hcall
    · exact h.calls c (mem_of_mem_erase hc)
  | addTimerReturns call junk =>
    obtain ⟨⟨hcall, -⟩, rfl⟩ := of_ite_some hst
    refine ⟨fun c hc => h.calls c (mem_of_mem_erase hc), fun r hr => ?_⟩
    rcases mem_append.1 hr with hr | hr
    · exact h.returned r hr
    · rw [mem_singleton.1 hr]
      obtain ⟨x, hx, hseq⟩ := h.calls call hcall
      rw [readSequence, hx]
      exact hseq
  | queueCancel sequence =>
    obtain rfl := Option.some.inj hst
    exact ⟨hkeep, h.returned⟩
  | swap =>
    obtain ⟨-, rfl⟩ := of_ite_some hst
    exact ⟨hkeep, h.returned⟩
  | runFunctor now =>
    obtain ⟨f, rest, hf, rfl⟩ := runFunctor_some hst
    exact ⟨hkeep, h.returned⟩

theorem cancel_others (inv : QueueInv waiting q) {id : ℕ} {x : Timer} (hx : q.pool.object p = some x)
    (hne : x.sequence ≠ id) :
    (q.cancel id).pool.object p = some x ∧ ((q.cancel id).timers.count p = q.timers.count p) ∧
      (q.processingTimer = some p → (q.cancel id).processingTimerCancelled = q.processingTimerCancelled) := by
  rcases inv.cancel_out id with ⟨p', hp', hseq, heq⟩ | ⟨p', hp', hseq, heq⟩ | ⟨-, heq⟩ <;> rw [heq]
  · have hpp : p ≠ p' := fun h => hne (by rw [← hseq, ← h, timer, Pool.get_of_object hx])
    exact ⟨(Function.update_of_ne hpp ..).trans hx, count_erase_of_ne hpp, fun _ => rfl⟩
  · refine ⟨hx, rfl, fun hp => absurd ?_ hne⟩
    rw [hp'] at hp
    rw [← hseq, Option.some.inj hp, timer, Pool.get_of_object hx]
  · exact ⟨hx, rfl, fun _ => rfl⟩

/-- **AddTimer returns its own timer's id**, on any thread, if no timer is released before its `AddTimer` has returned;
a `Cancel` of the id then leaves every other timer alone. -/
theorem addTimer_returns_own_id {tr : List CallEvent} (hrun : run callStep {} tr = some s)
    (hfirst : EachStep ReturnsFirst [] tr) : ∀ r ∈ s.returned, r.2 = r.1 ∧
      ∀ p x, s.queue.pool.object p = some x → x.sequence ≠ r.1 →
        (s.queue.cancel r.2).pool.object p = some x ∧ ((s.queue.cancel r.2).timers.count p = s.queue.timers.count p) ∧
        (s.queue.processingTimer = some p →
          (s.queue.cancel r.2).processingTimerCancelled = s.queue.processingTimerCancelled) := by
  have hown : OwnIds s :=
    run_induct_of ReturnsFirst (fun _ s => OwnIds s) ⟨by simp, by simp⟩
      (fun l s e t hl h hC hst => h.callStep (run_callInv l s hl) hst (hC s hl t hst)) tr s hrun hfirst
  intro r hr
  refine ⟨hown.returned r hr, fun p x hx hne => ?_⟩
  exact cancel_others (run_callInv tr s hrun).queue hx (hown.returned r hr ▸ hne)

/-- two calls on other threads; the first timer fires after its call has returned, and its address is used again -/
def ownRun : List CallEvent :=
  [.acquire 0 1000 0 5, .queueRegistration ⟨0, 5, false⟩, .swap, .runFunctor 10, .addTimerReturns ⟨0, 5, true⟩ 0,
   .loop (.handleRead 1000 true), .loop .pop, .loop .callbackReturns, .loop (.passEnds 1010), .acquire 0 3000 0 6,
   .queueRegistration ⟨0, 6, false⟩, .addTimerReturns ⟨0, 6, true⟩ 0]

theorem addTimer_returns_own_id_ownRun : ∃ s, run callStep {} ownRun = some s ∧ s.returned = [(5, 5), (6, 6)] ∧
    ∀ r ∈ s.returned, r.2 = r.1 ∧ ∀ p x, s.queue.pool.object p = some x → x.sequence ≠ r.1 →
      (s.queue.cancel r.2).pool.object p = some x ∧ ((s.queue.cancel r.2).timers.count p = s.queue.timers.count p) ∧
      (s.queue.processingTimer = some p →
        (s.queue.cancel r.2).processingTimerCancelled = s.queue.processingTimerCancelled) := by
  have hfacts : ∃ s ∈ run callStep {} ownRun, s.returned = [(5, 5), (6, 6)] := by decide +kernel
  have hfirst : EachStep ReturnsFirst [] ownRun := by decide +kernel
  obtain ⟨s, hs, hreturned⟩ := hfacts
  have hown := addTimer_returns_own_id hs
  exact ⟨s, hs, hreturned, hown hfirst⟩

/-- a call on another thread queues its registration; the timer fires and is released before the call goes on, and a
call on the loop thread gets the address -/
def reusedRun : List CallEvent :=
  [.acquire 0 1000 0 5, .queueRegistration ⟨0, 5, false⟩, .swap, .runFunctor 10, .loop (.handleRead 1000 true),
    .loop .pop,
   .loop .callbackReturns, .loop (.passEnds 1010), .loop (.addTimer 0 9000 0 6 1020), .addTimerReturns ⟨0, 5, true⟩ 0]

/-- **AddTimer returns the id of another timer**, and a `Cancel` of it takes that timer away. -/
theorem addTimer_returns_other_id : ∃ s t, run callStep {} reusedRun = some s ∧ s.returned = [(6, 6), (5, 6)] ∧
    s.queue.timers = [0] ∧ (s.queue.timer 0).sequence = 6 ∧ callStep s (.loop (.cancel 6)) = some t ∧
    t.queue.timers = [] ∧ t.queue.pool.released = [5, 6] := by
  have hfacts : ∃ s ∈ run callStep {} reusedRun, s.returned = [(6, 6), (5, 6)] ∧ s.queue.timers = [0] ∧
      (s.queue.timer 0).sequence = 6 ∧ ∃ t ∈ callStep s (.loop (.cancel 6)),
        t.queue.timers = [] ∧ t.queue.pool.released = [5, 6] := by
    decide +kernel
  obtain ⟨s, hs, hreturned, htimers, hseq, t, ht, hempty, hreleased⟩ := hfacts
  exact ⟨s, t, hs, hreturned, htimers, hseq, ht, hempty, hreleased⟩

end Calls

end Coropact.Net
