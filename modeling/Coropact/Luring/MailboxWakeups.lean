/-
Wakeups of the mailbox.

A message is queued when it is published and not yet moved out (`Queued`). `Covered` says who will get it out: a
producer that owes a notification or is the next to find the flag clear, a notification that is undelivered, or the
consumer, if it is inside `Drain` and still has to look at the queue. Positions are below 2 ^ 63, as for the queue
(`PositionsBelow`).

`Wakeups` is the invariant. While the flag is set, somebody holds it: a producer, an undelivered notification, or the
consumer before it clears it. While it is clear, each queued message has its own reason to be found. `Empty` compares
the reserved positions, not the published ones; this is why a consumer that read `enqueue_position_` has seen every
message published before (`Sees`).

`RetryNotification` tests and then stores. Between its load of `enqueue_position_` and its store other producers may
push, find the flag set and rely on it; the store then drops their wakeup (`retry_drops_wakeup`). If no producer
exchanges the flag in that window, every message that `Empty` did not count has a producer that is still to exchange.
-/
import Coropact.Luring.Mailbox

namespace Coropact.Luring

open Coropact.Machine Coropact.Ds List Function Option

/-! ## Who will look at the queue -/

/-- published and not moved out -/
def Queued (h : History LUringMessage) (p : ℕ) : Prop := p ∈ h.published ∧ h.popped.length ≤ p

instance (h : History LUringMessage) (p : ℕ) : Decidable (Queued h p) := inferInstanceAs (Decidable (_ ∧ _))

/-- a producer that was handed kQueuedNeedsNotification and has neither notified nor given up -/
def MailboxPc.holdsFlag : MailboxPc → Bool
  | .owes | .retry _ | .retryStore _ => true
  | _ => false

/-- the same, unless it is about to give up -/
def MailboxPc.willNotify : MailboxPc → Bool
  | .owes | .retry _ | .retryStore true => true
  | _ => false

/-- the consumer before it clears the flag -/
def MailboxPc.draining : MailboxPc → Bool
  | .drain _ _ | .clear => true
  | _ => false

/-- inside `RetryNotification` -/
def MailboxPc.retrying : MailboxPc → Bool
  | .retry _ | .retryStore _ => true
  | _ => false

/-- inside `RetryNotification`, `enqueue_position_` loaded, and on the way to clearing the flag unless `Empty` is still
to find a message -/
def MailboxPc.deciding : MailboxPc → Bool
  | .retry (.enqueue _) | .retryStore false => true
  | _ => false

/-- the consumer is inside `Drain` and will load from the queue again before it returns; from its last test on only as
long as no producer takes the flag -/
def LooksAgain (m : LUringMailbox) : MailboxPc → Prop
  | .drain _ _ | .clear | .check | .checking (.dequeue _) => True
  | .checking (.enqueue e) => e ≠ m.queue.dequeuePosition ∧ m.notificationPending = false
  | .claim => m.notificationPending = false
  | _ => False

/-- the loads of the consumer that can find a message -/
def MailboxAccess.looks : MailboxAccess → Bool
  | .queue _ | .loadEnqueue _ => true
  | _ => false

/-- the accesses of `RetryNotification`, made by a producer -/
def MailboxAccess.ofRetry : MailboxAccess → Bool
  | .loadEnqueue _ | .loadDequeue _ | .store _ => true
  | _ => false

def MailboxAccess.isExchange : MailboxAccess → Bool
  | .exchange _ => true
  | _ => false

section Statements

variable {ι : Type*}

def Covered (m : LUringMailbox) (pcs : Option ι → MailboxPc) : Prop :=
  (∃ i, (pcs (some i)).willNotify = true) ∨ (m.notificationPending = false ∧ ∃ i, pcs (some i) = .exchange) ∨
    0 < m.undelivered ∨ LooksAgain m (pcs none)

/-- no producer calls `RetryNotification` -/
def PushesOnly (tr : List (Option ι × MailboxAccess)) : Prop := ∀ e ∈ tr, e.1 ≠ none → e.2.ofRetry = false

instance (tr : List (Option ι × MailboxAccess)) : Decidable (PushesOnly tr) :=
  inferInstanceAs (Decidable (∀ e ∈ tr, e.1 ≠ none → e.2.ofRetry = false))

variable [DecidableEq ι]

/-- what is to hold after a run in which producers only push -/
structure NoLostWakeup (tr : List (Option ι × MailboxAccess)) (s : LUringMailbox × (Option ι → MailboxPc)) : Prop where
  covered : (∃ p, Queued (history (queueTrace tr)) p) → Covered s.1 s.2
  /-- a consumer that looks again does so before it returns, unless a producer is handed kQueuedNeedsNotification -/
  looks : LooksAgain s.1 (s.2 none) → ∀ rest t, run mailboxStep s rest = some t → PushesOnly rest → t.2 none = .idle →
    (∃ a, (none, a) ∈ rest ∧ a.looks = true) ∨ ∃ i, (some i, .exchange false) ∈ rest
  /-- while the flag is clear and a producer is about to exchange it, some producer is handed kQueuedNeedsNotification,
  or the consumer takes the flag and looks again -/
  receives : ∀ i, s.1.notificationPending = false → s.2 (some i) = .exchange → ∀ rest t,
    run mailboxStep s rest = some t → PushesOnly rest → t.2 (some i) ≠ .exchange →
    (∃ j, (some j, .exchange false) ∈ rest) ∨ (none, .compareExchange false) ∈ rest
  quiet : (∀ i, s.2 (some i) = .idle) → s.1.undelivered = 0 → s.2 none = .idle → (history (queueTrace tr)).waiting = []

/-- no producer exchanges the flag while another is inside `RetryNotification`, past its load of `enqueue_position_` and
before its store -/
def RetryAlone (l : List (Option ι × MailboxAccess)) (e : Option ι × MailboxAccess) : Prop :=
  e.2.isExchange = true → ∀ s ∈ run mailboxStep mailboxInit l, ∀ j, (s.2 (some j)).deciding = false

instance [Fintype ι] (l : List (Option ι × MailboxAccess)) (e : Option ι × MailboxAccess) :
    Decidable (RetryAlone l e) :=
  inferInstanceAs (Decidable (_ → ∀ s ∈ run mailboxStep mailboxInit l, ∀ j, (s.2 (some j)).deciding = false))

/-- whenever `RetryNotification` returns false, each queued message is covered; the producer that returns has nothing
more to do with it -/
def RetryCovers (tr : List (Option ι × MailboxAccess)) : Prop :=
  ∀ l j r, tr = l ++ (some j, .store false) :: r → ∀ s, run mailboxStep mailboxInit (l ++ [(some j, .store false)]) =
    some s →
    s.2 (some j) = .idle ∧
      ∀ p, Queued (history (queueTrace (l ++ [(some j, .store false)]))) p → Covered s.1 s.2

end Statements

/-! ## The invariant -/

variable {q q' : MpscBoundedQueue LUringMessage} {pc : MailboxPc} {p : ℕ}

section Invariant

variable {ι : Type*} {h h' : History LUringMessage} {m m' : LUringMailbox} {pcs : Option ι → MailboxPc}

/-- some producer has published and not exchanged -/
def Exchanging (pcs : Option ι → MailboxPc) : Prop := ∃ i, pcs (some i) = .exchange

/-- the consumer will not return without having seen position `p` counted as reserved -/
def Sees (p : ℕ) : MailboxPc → Prop
  | .drain _ _ | .clear | .check | .checking (.dequeue _) | .claim => True
  | .checking (.enqueue e) => p < e.toNat
  | _ => False

def Watched (m : LUringMailbox) (pcs : Option ι → MailboxPc) (p : ℕ) : Prop :=
  Exchanging pcs ∨ (∃ i, (pcs (some i)).willNotify = true) ∨ 0 < m.undelivered ∨ Sees p (pcs none)

/-- what a producer inside `RetryNotification` knows of the queued messages -/
def RetryAt (h : History LUringMessage) (q : MpscBoundedQueue LUringMessage) (exchanging : Prop) : MailboxPc → Prop
  | .retry (.dequeue d) => d.toNat ≤ q.dequeuePosition.toNat
  | .retry (.enqueue e) => ∀ p, Queued h p → e.toNat ≤ p → exchanging
  | .retryStore false => ∀ p, Queued h p → p < q.dequeuePosition.toNat ∨ exchanging
  | _ => True

structure Wakeups (h : History LUringMessage) (m : LUringMailbox) (pcs : Option ι → MailboxPc) : Prop where
  set : m.notificationPending = true →
    (∃ i, (pcs (some i)).holdsFlag = true) ∨ 0 < m.undelivered ∨ (pcs none).draining = true
  clear : m.notificationPending = false → ∀ p, Queued h p → Watched m pcs p
  retries : ∀ j, RetryAt h m.queue (Exchanging pcs) (pcs (some j))
  checking : ∀ d, pcs none = .checking (.dequeue d) → d = m.queue.dequeuePosition
  consumer : ∀ pc, pcs none ≠ .push pc

theorem RetryAt.mono {X X' : Prop} (hr : RetryAt h q X pc) (hdeq : q.dequeuePosition.toNat ≤ q'.dequeuePosition.toNat)
    (hX : X → X') (hqueued : ∀ p, Queued h' p → Queued h p ∨ X') : RetryAt h' q' X' pc := by
  cases pc with
  | retry seen =>
    cases seen with
    | dequeue d => exact le_trans hr hdeq
    | enqueue e =>
      intro p hp hle
      rcases hqueued p hp with hp | hx
      · exact hX (hr p hp hle)
      · exact hx
  | retryStore pending =>
    cases pending with
    | true => trivial
    | false =>
      intro p hp
      rcases hqueued p hp with hp | hx
      · exact (hr p hp).imp (fun hlt => hlt.trans_le hdeq) hX
      · exact .inr hx
  | _ => trivial

theorem RetryAt.of_not_deciding {X X' : Prop} (hr : RetryAt h q X pc) (hpc : pc.deciding = false) :
    RetryAt h' q X' pc := by
  cases pc with
  | retry seen =>
    cases seen with
    | dequeue d => exact hr
    | enqueue e => cases hpc
  | retryStore pending =>
    cases pending with
    | true => trivial
    | false => cases hpc
  | _ => trivial

theorem sees_of_draining (hpc : pc.draining = true) (p : ℕ) : Sees p pc := by
  cases pc with
  | drain pc drained => trivial
  | clear => trivial
  | _ => cases hpc

theorem looksAgain_of_draining (hpc : pc.draining = true) : LooksAgain m pc := by
  cases pc with
  | drain pc drained => trivial
  | clear => trivial
  | _ => cases hpc

theorem willNotify_of_holdsFlag (hflag : pc.holdsFlag = true) (hpc : pc.retrying = false) :
    pc.willNotify = true := by
  cases pc with
  | owes => rfl
  | retry seen => cases hpc
  | retryStore pending => cases hpc
  | _ => cases hflag

variable (inv : Inv kCapacity h m.queue (MailboxPc.inQueue ∘ pcs))

include inv

theorem dequeue_eq_popped (hpc : (pcs none).inQueue = .idle) :
    m.queue.dequeuePosition.toNat = h.popped.length := by
  have hcon : ConsumerAt h m.queue (pcs none).inQueue := inv.consumer
  rw [hpc] at hcon
  exact hcon.1.trans hcon.2.symm

theorem Wakeups.draining_of_lt (w : Wakeups h m pcs) (hp : Queued h p) (hlt : p < m.queue.dequeuePosition.toNat) :
    (pcs none).draining = true := by
  cases hpc : pcs none with
  | drain pc drained => rfl
  | clear => rfl
  | push pc => exact absurd hpc (w.consumer pc)
  | _ =>
    have hdeq := dequeue_eq_popped inv (by rw [hpc]; rfl)
    have hle := hp.2
    omega

theorem Wakeups.covered_of_clear (w : Wakeups h m pcs) (hclear : m.notificationPending = false) (hp : Queued h p) :
    Covered m pcs := by
  rcases w.clear hclear p hp with hx | hnotify | hund | hsees
  · exact .inr (.inl ⟨hclear, hx⟩)
  · exact .inl hnotify
  · exact .inr (.inr (.inl hund))
  · refine .inr (.inr (.inr ?_))
    cases hpc : pcs none with
    | checking seen =>
      cases seen with
      | dequeue d => trivial
      | enqueue e =>
        have hdeq := dequeue_eq_popped inv (by rw [hpc]; rfl)
        rw [hpc] at hsees
        have hlt : p < e.toNat := hsees
        refine ⟨fun heq => ?_, hclear⟩
        rw [heq] at hlt
        exact absurd hp.2 (by omega)
    | claim => exact hclear
    | drain pc drained => trivial
    | clear => trivial
    | check => trivial
    | _ =>
      rw [hpc] at hsees
      exact hsees.elim

omit inv

/-- with a set flag and no producer inside `RetryNotification`, whoever holds the flag covers the queue -/
theorem Wakeups.covered_of_set (w : Wakeups h m pcs) (hset : m.notificationPending = true)
    (hretry : ∀ i, (pcs (some i)).retrying = false) : Covered m pcs := by
  rcases w.set hset with ⟨i, hi⟩ | hund | hdrain
  · exact .inl ⟨i, willNotify_of_holdsFlag hi (hretry i)⟩
  · exact .inr (.inr (.inl hund))
  · exact .inr (.inr (.inr (looksAgain_of_draining hdrain)))

end Invariant

/-! ## One step -/

section Steps

variable {ι : Type*} [DecidableEq ι] {h h' : History LUringMessage} {m m' : LUringMailbox} {pcs : Option ι → MailboxPc}
  {pc pc' : MailboxPc} {a : MailboxAccess} {k : ι}

theorem exists_update {P : MailboxPc → Prop} (hex : ∃ i, P (pcs (some i))) (hk : P (pcs (some k)) → P pc') :
    ∃ i, P (Function.update pcs (some k) pc' (some i)) := by
  obtain ⟨i, hi⟩ := hex
  refine ⟨i, ?_⟩
  by_cases hik : i = k
  · subst hik
    rw [update_self]
    exact hk hi
  · rwa [update_of_ne (by simpa using hik)]

theorem mover_update {P : MailboxPc → Prop} (hp : P pc') : ∃ i, P (Function.update pcs (some k) pc' (some i)) :=
  ⟨k, by rwa [update_self]⟩

theorem Wakeups.produced (w : Wakeups h m pcs)
    (hset : m'.notificationPending = true →
      (∃ i, (Function.update pcs (some k) pc' (some i)).holdsFlag = true) ∨ 0 < m'.undelivered ∨
        (pcs none).draining = true)
    (hclear : m'.notificationPending = false → ∀ p, Queued h' p → Watched m' (Function.update pcs (some k) pc') p)
    (hdeq : m'.queue.dequeuePosition = m.queue.dequeuePosition)
    (hown : RetryAt h' m'.queue (Exchanging (Function.update pcs (some k) pc')) pc')
    (hothers : ∀ j, RetryAt h m.queue (Exchanging pcs) (pcs (some j)) →
      RetryAt h' m'.queue (Exchanging (Function.update pcs (some k) pc')) (pcs (some j))) :
    Wakeups h' m' (Function.update pcs (some k) pc') where
  set := by simpa using hset
  clear := hclear
  retries j := by
    by_cases hjk : j = k
    · subst hjk
      rwa [update_self]
    · rw [update_of_ne (by simpa using hjk)]
      exact hothers j (w.retries j)
  checking := by simpa [hdeq] using w.checking
  consumer := by simpa using w.consumer

theorem Watched.update (hw : Watched m pcs p) (hx : pcs (some k) = .exchange → pc' = .exchange)
    (hn : (pcs (some k)).willNotify = true → pc'.willNotify = true) (hund : m.undelivered ≤ m'.undelivered) :
    Watched m' (Function.update pcs (some k) pc') p := by
  rcases hw with hex | hnotify | hpos | hsees
  · exact .inl (exists_update (P := (· = .exchange)) hex hx)
  · exact .inr (.inl (exists_update (P := (·.willNotify = true)) hnotify hn))
  · exact .inr (.inr (.inl (hpos.trans_le hund)))
  · exact .inr (.inr (.inr (by simpa using hsees)))

variable {access : QueueAccess LUringMessage} {at' at'' : QueuePc LUringMessage} {seen : EmptyPc}

theorem push_queued (hmove : PushStep kCapacity m.queue at' access q at'') (hp : Queued (h.next access) p) :
    Queued h p ∨ afterPush access at'' = .exchange := by
  cases hmove with
  | publish position => exact .inr rfl
  | _ => exact .inl hp

theorem push_dequeuePosition (hmove : PushStep kCapacity q at' access q' at'') :
    q'.dequeuePosition = q.dequeuePosition := by
  cases hmove <;> rfl

theorem pop_queued (hmove : PopStep kCapacity m.queue at' access q at'') (hp : Queued (h.next access) p) :
    Queued h p := by
  cases hmove with
  | take position =>
    obtain ⟨hpub, hle⟩ := hp
    simp only [History.next, length_append] at hle
    exact ⟨hpub, by omega⟩
  | _ => exact hp

theorem pop_draining (hmove : PopStep kCapacity q at' access q' at'') (drained : Bool) :
    (afterPop drained access at'').draining = true := by
  cases hmove <;> cases drained <;> rfl

theorem pop_dequeuePosition_le (hb : PositionsBelow kCapacity h) (hcon : ConsumerAt h q at')
    (hmove : PopStep kCapacity q at' access q' at'') :
    q.dequeuePosition.toNat ≤ q'.dequeuePosition.toNat := by
  cases hmove with
  | advance =>
    have hdeq : q.dequeuePosition.toNat = h.releases := hcon.2.1
    have hlt : h.releases + kCapacity ≤ 2 ^ 63 := hb.2
    rw [toNat_add_one (by simp only [kCapacity] at hlt; omega)]
    omega
  | _ => exact le_rfl

def nextHistory (h : History LUringMessage) : MailboxAccess → History LUringMessage
  | .queue access => h.next access
  | _ => h

theorem ProducerMove.ne_exchange (hmove : ProducerMove m pc a m' pc') (ha : a.isExchange = false) : pc ≠ .exchange := by
  rintro rfl
  cases hmove with
  | queue hin => cases hin
  | exchangeSet => cases ha
  | exchangeClear => cases ha

theorem FirstLoad.silent (hload : FirstLoad m a seen) : nextHistory h a = h ∧ a.isExchange = false := by
  cases hload <;> exact ⟨rfl, rfl⟩

theorem SecondLoad.silent {empty : Bool} (hload : SecondLoad m seen a empty) :
    nextHistory h a = h ∧ a.isExchange = false := by
  cases hload <;> exact ⟨rfl, rfl⟩

omit [DecidableEq ι] in
theorem retry_second {empty : Bool} (w : Wakeups h m pcs) (inv : Inv kCapacity h m.queue (MailboxPc.inQueue ∘ pcs))
    (hpc : pcs (some k) = .retry seen) (hload : SecondLoad m seen a empty) (hempty : empty = true) :
    ∀ p, Queued h p → p < m.queue.dequeuePosition.toNat ∨ Exchanging pcs := by
  intro p hp
  have hknows := w.retries k
  rw [hpc] at hknows
  cases hload with
  | dequeue e =>
    have he : e = m.queue.dequeuePosition := of_decide_eq_true hempty
    rcases Nat.lt_or_ge p m.queue.dequeuePosition.toNat with hlt | hge
    · exact .inl hlt
    · exact .inr (hknows p hp (he ▸ hge))
  | enqueue d =>
    have hd : m.queue.enqueuePosition = d := of_decide_eq_true hempty
    have hle : d.toNat ≤ m.queue.dequeuePosition.toNat := hknows
    have hres := inv.queue.reserved p hp.1
    have henq := inv.queue.enqueue
    rw [hd] at henq
    exact .inl (by omega)

theorem Wakeups.watched_of_found (w : Wakeups h m pcs) (inv : Inv kCapacity h m.queue (MailboxPc.inQueue ∘ pcs))
    (hp : Queued h p) (hfound : p < m.queue.dequeuePosition.toNat ∨ Exchanging pcs)
    (hex : Exchanging pcs → Exchanging (Function.update pcs (some k) pc')) :
    Watched m' (Function.update pcs (some k) pc') p := by
  rcases hfound with hlt | hx
  · have hdrain := w.draining_of_lt inv hp hlt
    exact .inr (.inr (.inr (by simpa using sees_of_draining hdrain p)))
  · exact .inl (hex hx)

/-- **A producer's step keeps the invariant**, if nobody exchanges the flag while another producer decides. -/
theorem producer_wakeups (w : Wakeups h m pcs) (inv : Inv kCapacity h m.queue (MailboxPc.inQueue ∘ pcs))
    (hpc : pcs (some k) = pc) (hmove : ProducerMove m pc a m' pc')
    (halone : a.isExchange = true → ∀ j, (pcs (some j)).deciding = false) :
    Wakeups (nextHistory h a) m' (Function.update pcs (some k) pc') := by
  have hx : a.isExchange = false → pcs (some k) = .exchange → pc' = .exchange := fun ha heq =>
    absurd (hpc ▸ heq) (hmove.ne_exchange ha)
  have hex : a.isExchange = false → Exchanging pcs → Exchanging (Function.update pcs (some k) pc') := fun ha hall =>
    exists_update (P := (· = .exchange)) hall (hx ha)
  cases hmove with
  | @queue _ at' at'' access q hin hpush =>
    -- the mover was outside the flag's protocol, and enters it with its publication
    have hflag : (pcs (some k)).holdsFlag = false ∧ (pcs (some k)).willNotify = false := by
      rw [hpc]
      cases pc <;> cases hin <;> exact ⟨rfl, rfl⟩
    have hqueued : ∀ p, Queued (h.next access) p →
        Queued h p ∨ Exchanging (Function.update pcs (some k) (afterPush access at'')) := fun p hp =>
      (push_queued hpush hp).imp_right (mover_update (P := (· = .exchange)))
    have hdeq := push_dequeuePosition hpush
    refine w.produced (fun hset => ?_) (fun hclear p hp => ?_) hdeq ?_ fun j hj => ?_
    · refine (w.set hset).imp_left fun hholds => exists_update (P := (·.holdsFlag = true)) hholds fun hk => ?_
      rw [hflag.1] at hk
      cases hk
    · rcases hqueued p hp with hp | hpublished
      · refine (w.clear hclear p hp).update (hx rfl) (fun hk => ?_) le_rfl
        rw [hflag.2] at hk
        cases hk
      · exact .inl hpublished
    · cases hpush <;> trivial
    · exact hj.mono (le_of_eq (by rw [hdeq])) (hex rfl) hqueued
  | exchangeSet hset =>
    refine w.produced (fun _ => ?_) (fun hclear => ?_) rfl trivial fun j hj => hj.of_not_deciding (halone rfl j)
    · refine (w.set hset).imp_left fun hholds => exists_update (P := (·.holdsFlag = true)) hholds fun hk => ?_
      rw [hpc] at hk
      cases hk
    · rw [hset] at hclear
      cases hclear
  | exchangeClear hclear =>
    refine w.produced (fun _ => .inl (mover_update (P := (·.holdsFlag = true)) rfl)) (fun hset => ?_) rfl trivial
      fun j hj => hj.of_not_deciding (halone rfl j)
    cases hset
  | notify =>
    exact w.produced (fun _ => .inr (.inl (Nat.succ_pos _)))
      (fun _ _ _ => .inr (.inr (.inl (Nat.succ_pos _)))) rfl trivial
      fun j hj => hj.mono le_rfl (hex rfl) fun _ => .inl
  | @first _ seen hload =>
    obtain ⟨hh, ha⟩ := hload.silent (h := h)
    rw [hh]
    refine w.produced (fun _ => .inl (mover_update (P := (·.holdsFlag = true)) rfl))
      (fun hclear p hp => (w.clear hclear p hp).update (hx ha) (fun _ => rfl) le_rfl) rfl ?_
      fun j hj => hj.mono le_rfl (hex ha) fun _ => .inl
    cases hload with
    | dequeue => exact le_rfl
    | enqueue =>
      intro p hp hle
      have hres := inv.queue.reserved p hp.1
      have henq := inv.queue.enqueue
      omega
  | @second _ seen empty hload =>
    obtain ⟨hh, ha⟩ := hload.silent (h := h)
    have hfound := retry_second w inv hpc hload
    rw [hh]
    refine w.produced (fun _ => .inl (mover_update (P := (·.holdsFlag = true)) rfl)) (fun hclear p hp => ?_) rfl ?_
      fun j hj => hj.mono le_rfl (hex ha) fun _ => .inl
    · cases empty with
      | false => exact (w.clear hclear p hp).update (hx ha) (fun _ => rfl) le_rfl
      | true => exact w.watched_of_found inv hp (hfound rfl p hp) (hex ha)
    · cases empty with
      | false => trivial
      | true => exact fun p hp => (hfound rfl p hp).imp_right (hex ha)
  | storeClear =>
    have hknows := w.retries k
    rw [hpc] at hknows
    exact w.produced (fun hset => by cases hset) (fun _ p hp =>
      w.watched_of_found inv hp (hknows p hp) (hex rfl)) rfl trivial
      fun j hj => hj.mono le_rfl (hex rfl) fun _ => .inl
  | storeSet =>
    exact w.produced (fun _ => .inl (mover_update (P := (·.holdsFlag = true)) rfl))
      (fun hset => by cases hset) rfl trivial
      fun j hj => hj.mono le_rfl (hex rfl) fun _ => .inl

theorem Wakeups.consumed (w : Wakeups h m pcs)
    (hset : m'.notificationPending = true →
      (∃ i, (pcs (some i)).holdsFlag = true) ∨ 0 < m'.undelivered ∨ pc'.draining = true)
    (hclear : m'.notificationPending = false → ∀ p, Queued h' p → Watched m' (Function.update pcs none pc') p)
    (hdeq : m.queue.dequeuePosition.toNat ≤ m'.queue.dequeuePosition.toNat) (hqueued : ∀ p, Queued h' p → Queued h p)
    (hchecking : ∀ d, pc' = .checking (.dequeue d) → d = m'.queue.dequeuePosition) (hconsumer : ∀ pc, pc' ≠ .push pc) :
    Wakeups h' m' (Function.update pcs none pc') where
  set := by simpa using hset
  clear := hclear
  retries j := by
    exact (w.retries j).mono hdeq id fun p hp => .inl (hqueued p hp)
  checking d hd := hchecking d (by simpa using hd)
  consumer pc hpc := hconsumer pc (by simpa using hpc)

theorem watched_consumer (hsees : Sees p pc') : Watched m (Function.update pcs none pc') p :=
  .inr (.inr (.inr (by simpa using hsees)))

theorem Watched.consumer (hw : Watched m pcs p) (hsees : Sees p (pcs none) → Sees p pc') :
    Watched m (Function.update pcs none pc') p := by
  rcases hw with hx | hnotify | hpos | hp
  · exact .inl (by simpa [Exchanging] using hx)
  · exact .inr (.inl (by simpa using hnotify))
  · exact .inr (.inr (.inl hpos))
  · exact watched_consumer (hsees hp)

/-- **The consumer's step keeps the invariant.** -/
theorem consumer_wakeups (w : Wakeups h m pcs) (inv : Inv kCapacity h m.queue (MailboxPc.inQueue ∘ pcs))
    (hb : PositionsBelow kCapacity h) (hpc : pcs none = pc) (hmove : ConsumerMove m pc a m' pc') :
    Wakeups (nextHistory h a) m' (Function.update pcs none pc') := by
  cases hmove with
  | @queue at' at'' drained access q hpop =>
    have hdrain := pop_draining hpop drained
    have hcon : ConsumerAt h m.queue (pcs none).inQueue := inv.consumer
    rw [hpc] at hcon
    refine w.consumed (fun _ => .inr (.inr hdrain)) (fun _ p _ => watched_consumer (sees_of_draining hdrain p))
      (pop_dequeuePosition_le hb hcon hpop) (fun p => pop_queued hpop) (fun d hd => ?_) fun pc hpush => ?_
    · rw [hd] at hdrain
      cases hdrain
    · rw [hpush] at hdrain
      cases hdrain
  | deliver hpos =>
    exact w.consumed (fun _ => .inr (.inr rfl)) (fun _ p _ => watched_consumer trivial) le_rfl (fun _ => id) nofun nofun
  | clear =>
    exact w.consumed (fun hset => by cases hset) (fun _ p _ => watched_consumer trivial) le_rfl (fun _ =>
      id) nofun nofun
  | @first _ seen hload =>
    obtain ⟨hh, -⟩ := hload.silent (h := h)
    have hset := w.set
    rw [hpc] at hset
    rw [hh]
    cases hload with
    | dequeue =>
      refine w.consumed hset (fun _ p _ => watched_consumer trivial) le_rfl (fun _ => id) (fun d hd => ?_) nofun
      cases hd
      rfl
    | enqueue =>
      refine w.consumed hset (fun _ p hp => watched_consumer ?_) le_rfl (fun _ => id) nofun nofun
      have hres := inv.queue.reserved p hp.1
      have henq := inv.queue.enqueue
      exact hres.trans_eq henq.symm
  | @second _ seen empty hload =>
    obtain ⟨hh, -⟩ := hload.silent (h := h)
    have hset := w.set
    have hdeq := dequeue_eq_popped inv (by rw [hpc]; rfl)
    rw [hpc] at hset
    rw [hh]
    cases empty with
    | false =>
      exact w.consumed hset (fun _ p _ => watched_consumer trivial) le_rfl (fun _ => id) nofun nofun
    | true =>
      refine w.consumed hset (fun hclear p hp => (w.clear hclear p hp).consumer fun hsees => ?_) le_rfl
        (fun _ => id) nofun nofun
      -- what the consumer had still to see is below the dequeue position, so it is not queued
      have hle := hp.2
      rw [hpc] at hsees
      generalize hans : true = answer at hload
      cases hload with
      | dequeue e =>
        have heq : e = m.queue.dequeuePosition := of_decide_eq_true hans.symm
        have hlt : p < e.toNat := hsees
        rw [heq] at hlt
        omega
      | enqueue d =>
        have heq : m.queue.enqueuePosition = d := of_decide_eq_true hans.symm
        have hd := w.checking d hpc
        have hres := inv.queue.reserved p hp.1
        have henq := inv.queue.enqueue
        rw [heq, hd] at henq
        omega
  | claimed hclear =>
    exact w.consumed (fun _ => .inr (.inr rfl)) (fun hset => by cases hset) le_rfl (fun _ => id) nofun nofun
  | owned hset =>
    have hholds := w.set
    rw [hpc] at hholds
    refine w.consumed hholds (fun hclear => ?_) le_rfl (fun _ => id) nofun nofun
    rw [hset] at hclear
    cases hclear

end Steps

/-! ## Runs -/

section Runs

variable {ι : Type*} [DecidableEq ι] {s t : LUringMailbox × (Option ι → MailboxPc)}
  {tr : List (Option ι × MailboxAccess)} {i : Option ι} {a : MailboxAccess}

omit [DecidableEq ι] in
theorem history_queueTrace_snoc (l : List (Option ι × MailboxAccess)) (i : Option ι) (a : MailboxAccess) :
    history (queueTrace (l ++ [(i, a)])) = nextHistory (history (queueTrace l)) a := by
  cases a with
  | queue access =>
    rw [queueTrace_queue, history_snoc]
    rfl
  | _ =>
    rw [queueTrace_outside l i (by intro access heq; cases heq)]
    rfl

theorem PositionsBelow.of_nextHistory {h : History LUringMessage} (hb : PositionsBelow kCapacity (nextHistory h a)) :
    PositionsBelow kCapacity h := by
  cases a with
  | queue access => exact Ds.PositionsBelow.of_next hb
  | _ => exact hb

omit [DecidableEq ι] in
theorem init_wakeups : Wakeups {} {} (fun _ : Option ι => .idle) where
  set hset := by cases hset
  clear _ p hp := absurd hp.1 (not_mem_nil)
  retries _ := trivial
  checking _ hd := by cases hd
  consumer _ hpc := by cases hpc

/-- **The invariant along every run** in which nobody exchanges the flag while another producer decides. -/
theorem run_wakeups : ∀ (tr : List (Option ι × MailboxAccess)) (s : LUringMailbox × (Option ι → MailboxPc)),
    run mailboxStep mailboxInit tr = some s → EachStep RetryAlone [] tr →
      PositionsBelow kCapacity (history (queueTrace tr)) → Wakeups (history (queueTrace tr)) s.1 s.2 := by
  refine run_induct_of RetryAlone (fun tr (s : LUringMailbox × (Option ι → MailboxPc)) =>
    PositionsBelow kCapacity (history (queueTrace tr)) → Wakeups (history (queueTrace tr)) s.1 s.2)
    (fun _ => init_wakeups) ?_
  rintro l s ⟨i, a⟩ t hl ih halone hst hb
  rw [history_queueTrace_snoc] at hb ⊢
  have hb' := PositionsBelow.of_nextHistory hb
  have inv := run_queue_inv hl hb'
  cases i with
  | none =>
    obtain ⟨pc', hmove, ht⟩ := mailboxStep_consumer hst
    rw [ht]
    exact consumer_wakeups (ih hb') inv hb' rfl hmove
  | some k =>
    obtain ⟨pc', hmove, ht⟩ := mailboxStep_producer hst
    rw [ht]
    exact producer_wakeups (ih hb') inv rfl hmove fun hx => halone hx s hl

variable {m m' : LUringMailbox} {pc' : MailboxPc}

theorem ProducerMove.retrying (hmove : ProducerMove m pc a m' pc') (ha : a.ofRetry = false) : pc'.retrying = false := by
  cases hmove with
  | queue hin hpush => cases hpush <;> rfl
  | first hload => cases hload <;> cases ha
  | second hload => cases hload <;> cases ha
  | storeClear => cases ha
  | storeSet => cases ha
  | _ => rfl

theorem run_pushesOnly : ∀ (tr : List (Option ι × MailboxAccess)) (s : LUringMailbox × (Option ι → MailboxPc)),
    run mailboxStep mailboxInit tr = some s → PushesOnly tr → ∀ j, (s.2 (some j)).retrying = false := by
  refine run_induct (fun tr (s : LUringMailbox × (Option ι → MailboxPc)) =>
    PushesOnly tr → ∀ j, (s.2 (some j)).retrying = false) (fun _ _ => rfl) ?_
  rintro l s ⟨i, a⟩ t - ih hst hpush
  have hl := ih fun e he => hpush e (mem_append_left _ he)
  cases i with
  | none =>
    obtain ⟨pc', -, ht⟩ := mailboxStep_consumer hst
    rw [ht]
    simpa using hl
  | some k =>
    obtain ⟨pc', hmove, ht⟩ := mailboxStep_producer hst
    have hpc' := hmove.retrying (hpush (some k, a) (by simp) (by simp))
    intro j
    rw [ht]
    by_cases hjk : j = k
    · rw [hjk, update_self, hpc']
    · rw [update_of_ne (by simpa using hjk)]
      exact hl j

theorem eachStep_retryAlone (hpush : PushesOnly tr) : EachStep RetryAlone [] tr := by
  rw [eachStep_iff]
  intro l e r htr _ s hs j
  have hno := run_pushesOnly l s hs (fun e he => hpush e (by rw [htr]; exact mem_append_left _ he)) j
  revert hno
  generalize s.2 (some j) = pc
  intro hno
  cases pc with
  | retry seen => cases hno
  | retryStore pending => cases hno
  | _ => rfl

/-! ## What will happen -/

theorem LooksAgain.mono (hl : LooksAgain m pc) (hdeq : m'.queue.dequeuePosition = m.queue.dequeuePosition)
    (hflag : m.notificationPending = false → m'.notificationPending = false) : LooksAgain m' pc := by
  cases pc with
  | checking seen =>
    cases seen with
    | dequeue d => trivial
    | enqueue e => exact ⟨hdeq ▸ hl.1, hflag hl.2⟩
  | claim => exact hflag hl
  | _ => exact hl

theorem ConsumerMove.looksAgain (hmove : ConsumerMove m pc a m' pc') (hl : LooksAgain m pc) :
    a.looks = true ∨ LooksAgain m' pc' := by
  cases hmove with
  | queue => exact .inl rfl
  | deliver => exact .inr trivial
  | clear => exact .inr trivial
  | first hload =>
    cases hload with
    | enqueue => exact .inl rfl
    | dequeue => exact .inr trivial
  | second hload =>
    cases hload with
    | enqueue => exact .inl rfl
    | dequeue e =>
      rw [decide_eq_false hl.1]
      exact .inr hl.2
  | claimed => exact .inr trivial
  | owned hset => exact absurd (hset.symm.trans hl) (by decide)

theorem ProducerMove.looksAgain (hmove : ProducerMove m pc a m' pc') (ha : a.ofRetry = false) :
    a = .exchange false ∨ m'.queue.dequeuePosition = m.queue.dequeuePosition ∧
      m'.notificationPending = m.notificationPending := by
  cases hmove with
  | queue hin hpush => exact .inr ⟨push_dequeuePosition hpush, rfl⟩
  | exchangeClear => exact .inl rfl
  | first hload => cases hload <;> cases ha
  | second hload => cases hload <;> cases ha
  | storeClear => cases ha
  | storeSet => cases ha
  | _ => exact .inr ⟨rfl, rfl⟩

theorem run_looksAgain (rest : List (Option ι × MailboxAccess)) (hl : LooksAgain s.1 (s.2 none))
    (hrun : run mailboxStep s rest = some t) (hpush : PushesOnly rest) (hidle : t.2 none = .idle) :
    (∃ a, (none, a) ∈ rest ∧ a.looks = true) ∨ ∃ i, (some i, .exchange false) ∈ rest := by
  have hend := run_until (P := fun s : LUringMailbox × (Option ι → MailboxPc) => LooksAgain s.1 (s.2 none))
    (Q := fun e => e.1 = none ∧ e.2.looks = true ∨ ∃ i, e = (some i, .exchange false)) ?_ hl hrun
  · rcases hend with ht | ⟨⟨_, a⟩, he, ⟨rfl, hlook⟩ | ⟨i, hi⟩⟩
    · rw [hidle] at ht
      exact ht.elim
    · exact .inl ⟨a, he, hlook⟩
    · exact .inr ⟨i, hi ▸ he⟩
  · rintro u ⟨i, a⟩ v he hu hst
    cases i with
    | none =>
      obtain ⟨pc', hmove, hv⟩ := mailboxStep_consumer hst
      rcases hmove.looksAgain hu with hlook | hnext
      · exact .inl (.inl ⟨rfl, hlook⟩)
      · exact .inr (by rwa [hv])
    | some k =>
      obtain ⟨pc', hmove, hv⟩ := mailboxStep_producer hst
      rcases hmove.looksAgain (hpush _ he (by simp)) with rfl | ⟨hdeq, hflag⟩
      · exact .inl (.inr ⟨k, rfl⟩)
      · refine .inr ?_
        rw [hv]
        exact hu.mono hdeq fun hclear => hflag.trans hclear

theorem ConsumerMove.flag (hmove : ConsumerMove m pc a m' pc') (hclear : m.notificationPending = false) :
    a = .compareExchange false ∨ m'.notificationPending = false := by
  cases hmove with
  | claimed => exact .inl rfl
  | clear => exact .inr rfl
  | _ => exact .inr hclear

theorem ProducerMove.exchange_eq (hmove : ProducerMove m .exchange a m' pc') (hclear : m.notificationPending = false) :
    a = .exchange false := by
  cases hmove with
  | queue hin => cases hin
  | exchangeClear => rfl
  | exchangeSet hset => exact absurd (hset.symm.trans hclear) (by decide)

theorem run_receives (rest : List (Option ι × MailboxAccess)) {i : ι} (hclear : s.1.notificationPending = false)
    (hi : s.2 (some i) = .exchange) (hrun : run mailboxStep s rest = some t) (hpush : PushesOnly rest)
    (hdone : t.2 (some i) ≠ .exchange) :
    (∃ j, (some j, .exchange false) ∈ rest) ∨ (none, .compareExchange false) ∈ rest := by
  have hend := run_until (P := fun s : LUringMailbox × (Option ι → MailboxPc) =>
    s.1.notificationPending = false ∧ s.2 (some i) = .exchange)
    (Q := fun e => (∃ j, e = (some j, .exchange false)) ∨ e = (none, .compareExchange false)) ?_ ⟨hclear, hi⟩ hrun
  · rcases hend with ⟨-, ht⟩ | ⟨e, he, ⟨j, rfl⟩ | rfl⟩
    · exact absurd ht hdone
    · exact .inl ⟨j, he⟩
    · exact .inr he
  · rintro u ⟨j, a⟩ v he ⟨hu, hui⟩ hst
    cases j with
    | none =>
      obtain ⟨pc', hmove, hv⟩ := mailboxStep_consumer hst
      rcases hmove.flag hu with rfl | hnext
      · exact .inl (.inr rfl)
      · exact .inr ⟨hnext, by rwa [hv]⟩
    | some k =>
      obtain ⟨pc', hmove, hv⟩ := mailboxStep_producer hst
      rcases hmove.looksAgain (hpush _ he (by simp)) with rfl | ⟨-, hflag⟩
      · exact .inl (.inl ⟨k, rfl⟩)
      · by_cases hik : i = k
        · -- the exchange itself finds the flag clear
          subst hik
          rw [hui] at hmove
          obtain rfl := hmove.exchange_eq hu
          exact .inl (.inl ⟨i, rfl⟩)
        · exact .inr ⟨hflag.trans hu, by rwa [hv, update_of_ne (by simpa using hik)]⟩

theorem ProducerMove.store_false (hmove : ProducerMove m pc (.store false) m' pc') :
    pc' = .idle ∧ m'.notificationPending = false := by
  cases hmove with
  | storeClear => exact ⟨rfl, rfl⟩
  | first hload => cases hload
  | second hload => cases hload

/-! ## The mailbox -/

/-- **No lost wakeup.** In every run in which producers push and the consumer drains once for each delivered
notification, a queued message is covered, and nothing is left in the queue once everybody is quiet. -/
theorem mailbox_no_lost_wakeup (hrun : run mailboxStep mailboxInit tr = some s) (hpush : PushesOnly tr)
    (hb : PositionsBelow kCapacity (history (queueTrace tr))) : NoLostWakeup tr s := by
  have w := run_wakeups tr s hrun (eachStep_retryAlone hpush) hb
  have inv := run_queue_inv hrun hb
  have hcovered : ∀ p, Queued (history (queueTrace tr)) p → Covered s.1 s.2 := by
    intro p hp
    cases hflag : s.1.notificationPending with
    | false => exact w.covered_of_clear inv hflag hp
    | true => exact w.covered_of_set hflag (run_pushesOnly tr s hrun hpush)
  refine ⟨fun ⟨p, hp⟩ => hcovered p hp, fun hl rest t => run_looksAgain rest hl,
    fun i hclear hi rest t => run_receives rest hclear hi, fun hidle hund hnone => ?_⟩
  -- every reservation is published, and a published message that is not moved out would be covered
  have hall : ∀ p < (history (queueTrace tr)).reserved.length, p < (history (queueTrace tr)).popped.length := by
    intro p hp
    by_contra hle
    rcases run_reserved index_kCapacity (by decide) _ _ (run_queue tr s hrun) hb p hp with hpub | ⟨i, hown⟩
    · rcases hcovered p ⟨hpub, not_lt.1 hle⟩ with ⟨i, hi⟩ | ⟨-, i, hi⟩ | hpos | hl
      · rw [hidle i] at hi
        cases hi
      · rw [hidle i] at hi
        cases hi
      · omega
      · rw [hnone] at hl
        exact hl
    · simp only [queuePart, comp_apply, hidle i, QueuePc.owns] at hown
      cases hown
  refine drop_eq_nil_of_le (not_lt.1 fun hlt => ?_)
  exact absurd (hall _ hlt) (lt_irrefl _)

/-- **A retry that returns false leaves nothing uncovered**, if no producer exchanges the flag while another is inside
`RetryNotification` past its load of `enqueue_position_`. -/
theorem retry_keeps_wakeups (halone : EachStep RetryAlone [] tr)
    (hb : PositionsBelow kCapacity (history (queueTrace tr))) : RetryCovers tr := by
  intro l j r htr u hu
  have hsplit : tr = (l ++ [(some j, .store false)]) ++ r := by rw [htr]; simp
  have halone' : EachStep RetryAlone [] (l ++ [(some j, .store false)]) :=
    (eachStep_append.1 (hsplit ▸ halone)).1
  have hb' : PositionsBelow kCapacity (history (queueTrace (l ++ [(some j, .store false)]))) := by
    rw [hsplit, queueTrace, filterMap_append] at hb
    exact hb.of_append
  have w := run_wakeups _ u hu halone' hb'
  have inv := run_queue_inv hu hb'
  obtain ⟨v, hv, hst⟩ := run_snoc_some hu
  obtain ⟨pc', hmove, ht⟩ := mailboxStep_producer hst
  obtain ⟨hidle, hclear⟩ := hmove.store_false
  refine ⟨by rw [ht, update_self, hidle], fun p hp => w.covered_of_clear inv hclear hp⟩

end Runs

/-! ## Runs of two producers -/

/-- a message pushed at `position` and published -/
def pushAt (i : Bool) (position : BitVec 64) : List (Option Bool × MailboxAccess) :=
  [(some i, .queue (.tryPush {} position)), (some i, .queue (.pushSequence position position)),
   (some i, .queue (.reserve {} position position true)), (some i, .queue (.construct position {})),
   (some i, .queue (.publish position))]

/-- the message at `position` popped -/
def popAt (position : BitVec 64) : List (Option Bool × MailboxAccess) :=
  [(none, .queue (.tryPop position)), (none, .queue (.popSequence position (position + 1))),
   (none, .queue (.advance position position true)), (none, .queue (.take position (some {}))),
   (none, .queue (.release position))]

/-- a pop that finds the cell of `position` as it was at the start -/
def popNothing (position : BitVec 64) : List (Option Bool × MailboxAccess) :=
  [(none, .queue (.tryPop position)), (none, .queue (.popSequence position position))]

/-- both producers push; the first one notifies, and the drain it causes takes both messages and returns before the
second one exchanges the flag -/
def drainedEarly : List (Option Bool × MailboxAccess) :=
  pushAt false 0 ++ [(some false, .exchange false), (some false, .notify)] ++ pushAt true 1 ++ [(none, .deliver)] ++
    popAt 0 ++ popAt 1 ++ popNothing 2 ++ popNothing 2 ++
    [(none, .store false), (none, .loadEnqueue 2), (none, .loadDequeue 2)]

/-- a third message is published while the second producer has not exchanged yet -/
theorem mailbox_no_lost_wakeup_drainedEarly :
    ∃ s, run mailboxStep mailboxInit (drainedEarly ++ pushAt false 2) = some s ∧
    Queued (history (queueTrace (drainedEarly ++ pushAt false 2))) 2 ∧ Covered s.1 s.2 := by
  have hsome : (run mailboxStep mailboxInit (drainedEarly ++ pushAt false 2)).isSome = true := by decide +kernel
  obtain ⟨s, hs⟩ := isSome_iff_exists.1 hsome
  have hp : Queued (history (queueTrace (drainedEarly ++ pushAt false 2))) 2 := by decide +kernel
  exact ⟨s, hs, hp, (mailbox_no_lost_wakeup hs (by decide +kernel) (by decide +kernel)).covered ⟨2, hp⟩⟩

/-- the second producer's notification cannot be submitted and it retries: the queue is empty -/
def retryFindsEmpty : List (Option Bool × MailboxAccess) :=
  drainedEarly ++ [(some true, .exchange false), (some true, .loadEnqueue 2), (some true, .loadDequeue 2)]

/-- **A wakeup is dropped.** While the retrying producer is between its test and its store, the other one pushes a
message and finds the flag set, so that it relies on a notification; the store clears the flag, `RetryNotification`
returns false, and nobody is left to look at the message. -/
theorem retry_drops_wakeup : ∃ s, run mailboxStep mailboxInit (retryFindsEmpty ++ pushAt false 2 ++
      [(some false, .exchange true), (some true, .store false)]) = some s ∧
    Queued (history (queueTrace (retryFindsEmpty ++ pushAt false 2 ++
      [(some false, .exchange true), (some true, .store false)]))) 2 ∧
    (∀ i, s.2 i = .idle) ∧ s.1.undelivered = 0 ∧ ¬Covered s.1 s.2 := by
  have hend : ∃ s, run mailboxStep mailboxInit (retryFindsEmpty ++ pushAt false 2 ++
      [(some false, .exchange true), (some true, .store false)]) = some s ∧
      (∀ i, s.2 i = .idle) ∧ s.1.undelivered = 0 := by
    have hsome : ((run mailboxStep mailboxInit (retryFindsEmpty ++ pushAt false 2 ++
        [(some false, .exchange true), (some true, .store false)])).any fun s =>
          decide ((∀ i, s.2 i = .idle) ∧ s.1.undelivered = 0)) = true := by decide +kernel
    obtain ⟨s, hs, hidle⟩ := (any_eq_true _ _).1 hsome
    exact ⟨s, hs, of_decide_eq_true hidle⟩
  obtain ⟨s, hs, hidle, hund⟩ := hend
  refine ⟨s, hs, by decide +kernel, hidle, hund, ?_⟩
  rintro (⟨i, hi⟩ | ⟨-, i, hi⟩ | hpos | hl)
  · rw [hidle] at hi
    cases hi
  · rw [hidle] at hi
    cases hi
  · omega
  · rw [hidle] at hl
    exact hl

/-- the same with the exchange after the store: the message that was published in between is covered -/
theorem retry_keeps_wakeups_retryFindsEmpty : ∃ s, run mailboxStep mailboxInit
      (retryFindsEmpty ++ pushAt false 2 ++ [(some true, .store false)]) = some s ∧
    Queued (history (queueTrace (retryFindsEmpty ++ pushAt false 2 ++ [(some true, .store false)]))) 2 ∧
    Covered s.1 s.2 := by
  have hsome : (run mailboxStep mailboxInit
      (retryFindsEmpty ++ pushAt false 2 ++ [(some true, .store false)])).isSome = true := by decide +kernel
  obtain ⟨s, hs⟩ := isSome_iff_exists.1 hsome
  have hp : Queued (history (queueTrace (retryFindsEmpty ++ pushAt false 2 ++ [(some true, .store false)]))) 2 := by
    decide +kernel
  have halone : EachStep RetryAlone [] (retryFindsEmpty ++ pushAt false 2 ++ [(some true, .store false)]) := by
    decide +kernel
  exact ⟨s, hs, hp, (retry_keeps_wakeups halone (by decide +kernel) _ true [] rfl s hs).2 2 hp⟩

end Coropact.Luring
