/-
The mailbox of an io_uring loop (`include/coropact/luring/mailbox.h`), one atomic access at a time.

A producer pushes a message into the bounded queue and then exchanges the flag `notification_pending_`; the one that
finds it clear owes a notification. The consumer drains the queue once for each notification it is handed: it pops until
the queue gives nothing, clears the flag, looks whether the queue is empty, and otherwise tries to take the flag back. A
producer whose notification cannot be submitted may call `RetryNotification`. The queue's own accesses are those of
`Ds/MpscBoundedQueue`. `Empty` is two loads; C++ leaves their order open, so both orders are runs.

`undelivered` counts the notifications that have been submitted and not yet handed to the consumer.
-/
import Coropact.Ds.MpscFifo

namespace Coropact.Luring

open Coropact.Machine Coropact.Ds Function Option

/-! ## Model -/

inductive MessageType where | kResume | kFunction
deriving DecidableEq, Repr

structure LUringMessage where
  type : MessageType := .kResume
  data : BitVec 64 := 0
deriving DecidableEq, Repr

def kCapacity : ℕ := 1024

structure LUringMailbox where
  queue : MpscBoundedQueue LUringMessage := {}
  notificationPending : Bool := false
  undelivered : ℕ := 0

inductive MailboxAccess where
  /-- an access of `TryPush` or `TryPop` -/
  | queue (access : QueueAccess LUringMessage)
  /-- `notification_pending_.exchange(true)` in `Push` -/
  | exchange (was : Bool)
  | notify
  -- the two loads of `Empty`
  | loadEnqueue (position : BitVec 64) | loadDequeue (position : BitVec 64)
  /-- `notification_pending_.store` -/
  | store (pending : Bool)
  /-- the strong compare-exchange of `Drain`, from clear to set -/
  | compareExchange (was : Bool)
  /-- a notification reaches the loop, which calls `Drain` -/
  | deliver
deriving DecidableEq, Repr

/-- `Empty` after the first of its loads, with what it saw -/
inductive EmptyPc where
  | enqueue (position : BitVec 64) | dequeue (position : BitVec 64)
deriving DecidableEq, Repr

def emptyFirst : MailboxAccess → Option EmptyPc
  | .loadEnqueue position => some (.enqueue position)
  | .loadDequeue position => some (.dequeue position)
  | _ => none

/-- the second load, and whether the two positions are equal -/
def EmptyPc.second : EmptyPc → MailboxAccess → Option Bool
  | .enqueue position, .loadDequeue position' => some (decide (position = position'))
  | .dequeue position, .loadEnqueue position' => some (decide (position' = position))
  | _, _ => none

inductive MailboxPc where
  | idle
  -- `Push`: in `TryPush`; about to exchange the flag; kQueuedNeedsNotification was returned
  | push (pc : QueuePc LUringMessage) | exchange | owes
  -- `RetryNotification`: in `Empty`; about to store to the flag
  | retry (seen : EmptyPc) | retryStore (pending : Bool)
  -- `Drain`: in `TryPop`, and whether this round has popped something; about to clear the flag; about to call `Empty`;
  -- in `Empty`; about to take the flag back
  | drain (pc : QueuePc LUringMessage) (drained : Bool) | clear | check | checking (seen : EmptyPc) | claim
deriving DecidableEq, Repr

def mailboxMemory (m : LUringMailbox) : MailboxAccess → Option LUringMailbox
  | .queue access => (queueMemory kCapacity m.queue access).map fun q => { m with queue := q }
  | .exchange was | .compareExchange was =>
    if was = m.notificationPending then some { m with notificationPending := true } else none
  | .notify => some { m with undelivered := m.undelivered + 1 }
  | .loadEnqueue position => if position = m.queue.enqueuePosition then some m else none
  | .loadDequeue position => if position = m.queue.dequeuePosition then some m else none
  | .store pending => some { m with notificationPending := pending }
  | .deliver => if 0 < m.undelivered then some { m with undelivered := m.undelivered - 1 } else none

/-- where in `TryPush` a producer is, if it may go on with it -/
def MailboxPc.inPush : MailboxPc → Option (QueuePc LUringMessage)
  | .idle => some .idle
  | .push pc => some pc
  | _ => none

/-- where in `TryPop` the consumer is -/
def MailboxPc.inDrain : MailboxPc → Option (QueuePc LUringMessage × Bool)
  | .drain pc drained => some (pc, drained)
  | _ => none

/-- `Push` after an access of `TryPush` -/
def afterPush : QueueAccess LUringMessage → QueuePc LUringMessage → MailboxPc
  | .publish _, _ => .exchange
  | _, .idle => .idle  -- kFull
  | _, pc => .push pc

/-- `Drain` after an access of `TryPop` -/
def afterPop (drained : Bool) : QueueAccess LUringMessage → QueuePc LUringMessage → MailboxPc
  | .release _, _ => .drain .idle true
  | _, .idle => if drained then .drain .idle false else .clear  -- nullopt
  | _, pc => .drain pc drained

/-- a producer outside `TryPush` -/
def producerFlagStep : MailboxPc → MailboxAccess → Option MailboxPc
  | .exchange, .exchange was => some (if was then .idle else .owes)
  | .owes, .notify => some .idle
  | .owes, access => (emptyFirst access).map .retry
  | .retry seen, access => (seen.second access).map fun empty => .retryStore !empty
  | .retryStore pending, .store pending' =>
    if pending' = pending then some (if pending then .owes else .idle) else none
  | _, _ => none

def mailboxProducerStep (pc : MailboxPc) : MailboxAccess → Option MailboxPc
  | .queue access => pc.inPush.bind fun at' => (producerStep at' access).map (afterPush access)
  | access => producerFlagStep pc access

/-- the consumer outside `TryPop` -/
def consumerFlagStep : MailboxPc → MailboxAccess → Option MailboxPc
  | .idle, .deliver => some (.drain .idle false)
  | .clear, .store pending => if pending = false then some .check else none
  | .check, access => (emptyFirst access).map .checking
  | .checking seen, access => (seen.second access).map fun empty => if empty then .idle else .claim
  | .claim, .compareExchange was => some (if was then .idle else .drain .idle false)
  | _, _ => none

def mailboxConsumerStep (pc : MailboxPc) : MailboxAccess → Option MailboxPc
  | .queue access => pc.inDrain.bind fun at' => (consumerStep at'.1 access).map (afterPop at'.2 access)
  | access => consumerFlagStep pc access

section Model

variable {ι : Type*} [DecidableEq ι]

/-- `none` is the consumer, the others are producers -/
def mailboxStep : LUringMailbox × (Option ι → MailboxPc) → Option ι × MailboxAccess →
    Option (LUringMailbox × (Option ι → MailboxPc)) :=
  Par.step mailboxMemory fun i => if i = none then mailboxConsumerStep else mailboxProducerStep

def mailboxInit : LUringMailbox × (Option ι → MailboxPc) := ({}, fun _ => .idle)

def queueTrace (tr : List (Option ι × MailboxAccess)) : List (Option ι × QueueAccess LUringMessage) :=
  tr.filterMap fun e => match e.2 with
    | .queue access => some (e.1, access)
    | _ => none

end Model

/-! ## What a step can do -/

inductive FirstLoad (m : LUringMailbox) : MailboxAccess → EmptyPc → Prop
  | enqueue : FirstLoad m (.loadEnqueue m.queue.enqueuePosition) (.enqueue m.queue.enqueuePosition)
  | dequeue : FirstLoad m (.loadDequeue m.queue.dequeuePosition) (.dequeue m.queue.dequeuePosition)

inductive SecondLoad (m : LUringMailbox) : EmptyPc → MailboxAccess → Bool → Prop
  | dequeue (e : BitVec 64) :
      SecondLoad m (.enqueue e) (.loadDequeue m.queue.dequeuePosition) (decide (e = m.queue.dequeuePosition))
  | enqueue (d : BitVec 64) :
      SecondLoad m (.dequeue d) (.loadEnqueue m.queue.enqueuePosition) (decide (m.queue.enqueuePosition = d))

inductive ProducerMove (m : LUringMailbox) : MailboxPc → MailboxAccess → LUringMailbox → MailboxPc → Prop
  | queue {pc : MailboxPc} {at' at'' : QueuePc LUringMessage} {access : QueueAccess LUringMessage}
      {q : MpscBoundedQueue LUringMessage} (hpc : pc.inPush = some at')
      (h : PushStep kCapacity m.queue at' access q at'') :
      ProducerMove m pc (.queue access) { m with queue := q } (afterPush access at'')
  | exchangeSet (h : m.notificationPending = true) :
      ProducerMove m .exchange (.exchange true) m .idle
  | exchangeClear (h : m.notificationPending = false) :
      ProducerMove m .exchange (.exchange false) { m with notificationPending := true } .owes
  | notify : ProducerMove m .owes .notify { m with undelivered := m.undelivered + 1 } .idle
  | first {access : MailboxAccess} {seen : EmptyPc} (h : FirstLoad m access seen) :
      ProducerMove m .owes access m (.retry seen)
  | second {access : MailboxAccess} {seen : EmptyPc} {empty : Bool} (h : SecondLoad m seen access empty) :
      ProducerMove m (.retry seen) access m (.retryStore !empty)
  | storeClear :
      ProducerMove m (.retryStore false) (.store false) { m with notificationPending := false } .idle
  | storeSet : ProducerMove m (.retryStore true) (.store true) { m with notificationPending := true } .owes

inductive ConsumerMove (m : LUringMailbox) : MailboxPc → MailboxAccess → LUringMailbox → MailboxPc → Prop
  | queue {at' at'' : QueuePc LUringMessage} {drained : Bool} {access : QueueAccess LUringMessage}
      {q : MpscBoundedQueue LUringMessage} (h : PopStep kCapacity m.queue at' access q at'') :
      ConsumerMove m (.drain at' drained) (.queue access) { m with queue := q } (afterPop drained access at'')
  | deliver (h : 0 < m.undelivered) :
      ConsumerMove m .idle .deliver { m with undelivered := m.undelivered - 1 } (.drain .idle false)
  | clear : ConsumerMove m .clear (.store false) { m with notificationPending := false } .check
  | first {access : MailboxAccess} {seen : EmptyPc} (h : FirstLoad m access seen) :
      ConsumerMove m .check access m (.checking seen)
  | second {access : MailboxAccess} {seen : EmptyPc} {empty : Bool} (h : SecondLoad m seen access empty) :
      ConsumerMove m (.checking seen) access m (if empty then .idle else .claim)
  | claimed (h : m.notificationPending = false) :
      ConsumerMove m .claim (.compareExchange false) { m with notificationPending := true } (.drain .idle false)
  | owned (h : m.notificationPending = true) : ConsumerMove m .claim (.compareExchange true) m .idle

section Inversion

variable {m m' : LUringMailbox} {pc pc' : MailboxPc} {a : MailboxAccess}

theorem emptyFirst_move {seen : EmptyPc} (hm : mailboxMemory m a = some m') (h : emptyFirst a = some seen) :
    m' = m ∧ FirstLoad m a seen := by
  cases a with
  | loadEnqueue position =>
    obtain ⟨rfl, rfl⟩ := of_ite_some hm
    exact ⟨rfl, some.inj h ▸ .enqueue⟩
  | loadDequeue position =>
    obtain ⟨rfl, rfl⟩ := of_ite_some hm
    exact ⟨rfl, some.inj h ▸ .dequeue⟩
  | _ => cases h

theorem second_move {seen : EmptyPc} {empty : Bool} (hm : mailboxMemory m a = some m')
    (h : seen.second a = some empty) :
    m' = m ∧ SecondLoad m seen a empty := by
  revert h
  fun_cases EmptyPc.second seen a <;> intro h <;> cases h
  all_goals
    obtain ⟨rfl, rfl⟩ := of_ite_some hm
    exact ⟨rfl, by constructor⟩

theorem setPending_self (h : m.notificationPending = true) : { m with notificationPending := true } = m := by
  rw [← h]

theorem producerFlagStep_move (hm : mailboxMemory m a = some m') (hp : producerFlagStep pc a = some pc') :
    ProducerMove m pc a m' pc' := by
  revert hp
  fun_cases producerFlagStep pc a <;> intro hp <;> try cases hp
  case case1 =>
    obtain ⟨rfl, rfl⟩ := of_ite_some hm
    cases h : m.notificationPending with
    | true =>
      rw [setPending_self h]
      exact .exchangeSet h
    | false => exact .exchangeClear h
  case case2 => exact some.inj hm ▸ .notify
  case case3 =>
    obtain ⟨seen, hseen, rfl⟩ := map_eq_some_iff.1 hp
    obtain ⟨rfl, hfirst⟩ := emptyFirst_move hm hseen
    exact .first hfirst
  case case4 =>
    obtain ⟨empty, hempty, rfl⟩ := map_eq_some_iff.1 hp
    obtain ⟨rfl, hsecond⟩ := second_move hm hempty
    exact .second hsecond
  case case5 pending =>
    obtain rfl := some.inj hm
    cases pending with
    | true => exact .storeSet
    | false => exact .storeClear

theorem mailboxProducerStep_move (hm : mailboxMemory m a = some m') (hp : mailboxProducerStep pc a = some pc') :
    ProducerMove m pc a m' pc' := by
  cases a with
  | queue access =>
    obtain ⟨q, hq, rfl⟩ := map_eq_some_iff.1 hm
    obtain ⟨at', hpc, hp⟩ := bind_eq_some_iff.1 hp
    obtain ⟨at'', hat, rfl⟩ := map_eq_some_iff.1 hp
    exact .queue hpc (producerStep_move hq hat)
  | _ => exact producerFlagStep_move hm hp

theorem consumerFlagStep_move (hm : mailboxMemory m a = some m') (hp : consumerFlagStep pc a = some pc') :
    ConsumerMove m pc a m' pc' := by
  revert hp
  fun_cases consumerFlagStep pc a <;> intro hp <;> try cases hp
  case case1 =>
    obtain ⟨hpos, rfl⟩ := of_ite_some hm
    exact .deliver hpos
  case case2 => exact some.inj hm ▸ .clear
  case case4 =>
    obtain ⟨seen, hseen, rfl⟩ := map_eq_some_iff.1 hp
    obtain ⟨rfl, hfirst⟩ := emptyFirst_move hm hseen
    exact .first hfirst
  case case5 =>
    obtain ⟨empty, hempty, rfl⟩ := map_eq_some_iff.1 hp
    obtain ⟨rfl, hsecond⟩ := second_move hm hempty
    exact .second hsecond
  case case6 =>
    obtain ⟨rfl, rfl⟩ := of_ite_some hm
    cases h : m.notificationPending with
    | true =>
      rw [setPending_self h]
      exact .owned h
    | false => exact .claimed h

theorem mailboxConsumerStep_move (hm : mailboxMemory m a = some m') (hp : mailboxConsumerStep pc a = some pc') :
    ConsumerMove m pc a m' pc' := by
  cases a with
  | queue access =>
    obtain ⟨q, hq, rfl⟩ := map_eq_some_iff.1 hm
    obtain ⟨⟨at', drained⟩, hpc, hp⟩ := bind_eq_some_iff.1 hp
    obtain ⟨at'', hat, rfl⟩ := map_eq_some_iff.1 hp
    cases pc with
    | drain at₀ drained₀ =>
      cases hpc
      exact .queue (consumerStep_move hq hat)
    | _ => cases hpc
  | _ => exact consumerFlagStep_move hm hp

variable {ι : Type*} [DecidableEq ι] {s t : LUringMailbox × (Option ι → MailboxPc)}

theorem mailboxStep_producer {i : ι} (h : mailboxStep s (some i, a) = some t) :
    ∃ pc', ProducerMove s.1 (s.2 (some i)) a t.1 pc' ∧ t.2 = update s.2 (some i) pc' := by
  obtain ⟨pc', hm, hp, ht⟩ := Par.step_some h
  exact ⟨pc', mailboxProducerStep_move hm hp, ht⟩

theorem mailboxStep_consumer (h : mailboxStep s (none, a) = some t) :
    ∃ pc', ConsumerMove s.1 (s.2 none) a t.1 pc' ∧ t.2 = update s.2 none pc' := by
  obtain ⟨pc', hm, hp, ht⟩ := Par.step_some h
  exact ⟨pc', mailboxConsumerStep_move hm hp, ht⟩

end Inversion

/-! ## The queue of the mailbox -/

section Queue

variable {ι : Type*}

def MailboxPc.inQueue : MailboxPc → QueuePc LUringMessage
  | .push pc | .drain pc _ => pc
  | _ => .idle

variable {at' : QueuePc LUringMessage} {access : QueueAccess LUringMessage} {pc : MailboxPc}

theorem MailboxPc.inQueue_of_inPush (h : pc.inPush = some at') :
    pc.inQueue = at' := by
  cases pc <;> cases h <;> rfl

theorem MailboxPc.inQueue_of_inDrain {drained : Bool} (h : pc.inDrain = some (at', drained)) : pc.inQueue = at' := by
  cases pc <;> cases h
  rfl

theorem inQueue_afterPush {m q : MpscBoundedQueue LUringMessage} {at'' : QueuePc LUringMessage}
    (h : PushStep kCapacity m at' access q at'') :
    (afterPush access at'').inQueue = at'' := by
  cases h <;> rfl

theorem inQueue_afterPop {m q : MpscBoundedQueue LUringMessage} {at'' : QueuePc LUringMessage}
    (h : PopStep kCapacity m at' access q at'') (drained : Bool) :
    (afterPop drained access at'').inQueue = at'' := by
  cases h <;> cases drained <;> rfl

theorem ProducerMove.outside {m m' : LUringMailbox} {pc' : MailboxPc} {a : MailboxAccess}
    (h : ProducerMove m pc a m' pc') (ha : ∀ access, a ≠ .queue access) :
    m'.queue = m.queue ∧ pc'.inQueue = pc.inQueue := by
  cases h with
  | queue => exact absurd rfl (ha _)
  | _ => exact ⟨rfl, rfl⟩

theorem ConsumerMove.outside {m m' : LUringMailbox} {pc' : MailboxPc} {a : MailboxAccess}
    (h : ConsumerMove m pc a m' pc') (ha : ∀ access, a ≠ .queue access) :
    m'.queue = m.queue ∧ pc'.inQueue = pc.inQueue := by
  cases h with
  | queue => exact absurd rfl (ha _)
  | @second _ _ empty => cases empty <;> exact ⟨rfl, rfl⟩
  | _ => exact ⟨rfl, rfl⟩

theorem queueTrace_queue (l : List (Option ι × MailboxAccess)) (i : Option ι) (access : QueueAccess LUringMessage) :
    queueTrace (l ++ [(i, .queue access)]) = queueTrace l ++ [(i, access)] := by
  simp [queueTrace]

theorem queueTrace_outside (l : List (Option ι × MailboxAccess)) (i : Option ι) {a : MailboxAccess}
    (ha : ∀ access, a ≠ .queue access) : queueTrace (l ++ [(i, a)]) = queueTrace l := by
  cases a with
  | queue access => exact absurd rfl (ha access)
  | _ => simp [queueTrace]

variable [DecidableEq ι] {s t : LUringMailbox × (Option ι → MailboxPc)} {i : Option ι} {a : MailboxAccess}

def queuePart (s : LUringMailbox × (Option ι → MailboxPc)) :
    MpscBoundedQueue LUringMessage × (Option ι → QueuePc LUringMessage) :=
  (s.1.queue, MailboxPc.inQueue ∘ s.2)

theorem queueStep_of_mailboxStep (h : mailboxStep s (i, .queue access) = some t) :
    queueStep kCapacity (queuePart s) (i, access) = some (queuePart t) := by
  obtain ⟨pc', hm, hp, ht⟩ := Par.step_some h
  obtain ⟨q, hq, hm⟩ := map_eq_some_iff.1 hm
  obtain ⟨at', hat, hpc⟩ : ∃ at', (if i = none then consumerStep else producerStep) (s.2 i).inQueue access = some at' ∧
      pc'.inQueue = at' := by
    cases i with
    | none =>
      obtain ⟨⟨at', drained⟩, hin, hp⟩ := bind_eq_some_iff.1 hp
      obtain ⟨at'', hat, rfl⟩ := map_eq_some_iff.1 hp
      have hpc : (s.2 none).inQueue = at' := MailboxPc.inQueue_of_inDrain hin
      exact ⟨at'', hpc ▸ hat, inQueue_afterPop (consumerStep_move hq hat) drained⟩
    | some i =>
      obtain ⟨at', hin, hp⟩ := bind_eq_some_iff.1 hp
      obtain ⟨at'', hat, rfl⟩ := map_eq_some_iff.1 hp
      have hpc : (s.2 (some i)).inQueue = at' := MailboxPc.inQueue_of_inPush hin
      exact ⟨at'', hpc ▸ hat, inQueue_afterPush (producerStep_move hq hat)⟩
  simp only [queueStep, Par.step, queuePart, hq, comp_apply, hat, bind_some, map_some, ht,
    comp_update, hpc, ← hm]

theorem queuePart_outside (h : mailboxStep s (i, a) = some t) (ha : ∀ access, a ≠ .queue access) :
    queuePart t = queuePart s := by
  have hpart : ∃ pc', t.1.queue = s.1.queue ∧ pc'.inQueue = (s.2 i).inQueue ∧ t.2 = update s.2 i pc' := by
    cases i with
    | none =>
      obtain ⟨pc', hmove, ht⟩ := mailboxStep_consumer h
      exact ⟨pc', (hmove.outside ha).1, (hmove.outside ha).2, ht⟩
    | some i =>
      obtain ⟨pc', hmove, ht⟩ := mailboxStep_producer h
      exact ⟨pc', (hmove.outside ha).1, (hmove.outside ha).2, ht⟩
  obtain ⟨pc', hq, hpc, ht⟩ := hpart
  simp only [queuePart, hq, ht, comp_update, hpc]
  rw [← comp_apply (f := MailboxPc.inQueue) (g := s.2), update_eq_self]

/-- **The mailbox runs the queue.** Its accesses to the queue are a run of the queue, which ends in the queue's part of
the state. -/
theorem run_queue : ∀ (tr : List (Option ι × MailboxAccess)) (s : LUringMailbox × (Option ι → MailboxPc)),
    run mailboxStep mailboxInit tr = some s → run (queueStep kCapacity) queueInit (queueTrace tr) =
      some (queuePart s) := by
  refine run_induct (fun tr (s : LUringMailbox × (Option ι → MailboxPc)) =>
    run (queueStep kCapacity) queueInit (queueTrace tr) = some (queuePart s)) rfl ?_
  rintro l s ⟨i, a⟩ t - ih hst
  by_cases ha : ∃ access, a = .queue access
  · obtain ⟨access, rfl⟩ := ha
    rw [queueTrace_queue, run_snoc, ih]
    exact queueStep_of_mailboxStep hst
  · have hout : ∀ access, a ≠ .queue access := fun access heq => ha ⟨access, heq⟩
    rw [queueTrace_outside l i hout, ih, queuePart_outside hst hout]

theorem index_kCapacity (p : BitVec 64) : index kCapacity p = p.toNat % kCapacity :=
    Ring.and_mask (k := 10) (by decide) p

theorem run_queue_inv {tr : List (Option ι × MailboxAccess)} (h : run mailboxStep mailboxInit tr = some s)
    (hb : PositionsBelow kCapacity (history (queueTrace tr))) :
    Inv kCapacity (history (queueTrace tr)) s.1.queue (MailboxPc.inQueue ∘ s.2) := by
  exact run_inv index_kCapacity (by decide) _ _ (run_queue tr s h) hb

end Queue

end Coropact.Luring
