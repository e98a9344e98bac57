/-
The age of the streams a worker hands out (`ProxyPass::Forward` over one `UpstreamStreamPool`,
`include/coropact/gateway/`).

A worker runs any number of `Forward` calls in any order over its pool while time passes. `EvictStale` is an event of
its own: the class offers it, and nothing in the gateway calls it, so a run of the gateway has none.
-/
import Coropact.Gateway.StreamReuse
import Coropact.Gateway.StreamPool

namespace Coropact.Gateway

open Coropact.Machine Coropact.Http Coropact.Text UpstreamStreamPool List Option

variable {P S : Type*} [DecidableEq P] [DecidableEq S]

/-! ## The worker -/

structure Worker (P S : Type*) where
  clock : ℕ := 0
  pool : PoolRun P S := {}
  calls : List (ForwardCfg P × FwdPc P S) := []

open Worker

inductive WorkerEvent (P S : Type*) where
  | passed (now : ℕ)
  /-- a call of `Forward` starts -/
  | forward (cfg : ForwardCfg P)
  /-- a step of a call, with the address of a list node for a release -/
  | call (i : ℕ) (e : FwdEvent P S) (node : ℕ)
  | evictStale

namespace Worker

/-- the operation a step of a call makes on the pool -/
def poolEvent (now node : ℕ) : FwdEvent P S → Option (PoolEvent P S)
  | .poolAcquire p _ => some (.acquire p)
  | .poolRelease p s => some (.release p (some s) now node)
  | _ => none

/-- `Acquire` answers what the pool gives -/
def answered (pool : UpstreamStreamPool P S) : FwdEvent P S → Bool
  | .poolAcquire p r => (pool.acquire p).1 = r
  | _ => true

def onPool (cfg : PoolConfig) (w : Worker P S) (e : FwdEvent P S) (node : ℕ) : Option (PoolRun P S) :=
  if answered w.pool.pool e then
    match poolEvent w.clock node e with
    | none => some w.pool
    | some e => w.pool.step cfg e
  else none

def step (cfg : PoolConfig) (w : Worker P S) : WorkerEvent P S → Option (Worker P S)
  | .passed now => if w.clock ≤ now then some { w with clock := now } else none
  | .forward call => some { w with calls := w.calls ++ [(call, .start)] }
  | .call i e node =>
    w.calls[i]?.bind fun (call, pc) =>
      (fwdStep call pc e).bind fun pc =>
        (w.onPool cfg e node).map fun pool => { w with pool := pool, calls := w.calls.set i (call, pc) }
  | .evictStale => (w.pool.step cfg (.evictStale w.clock)).map fun pool => { w with pool := pool }

variable {cfg : PoolConfig} {w w' : Worker P S}

/-! ## What a step can do -/

theorem step_call {i : ℕ} {e : FwdEvent P S} {node : ℕ} (h : step cfg w (.call i e node) = some w') :
    w.onPool cfg e node = some w'.pool ∧ w'.clock = w.clock := by
  simp only [step, bind_eq_some_iff, map_eq_some_iff] at h
  obtain ⟨⟨call, pc⟩, -, pc', -, pool, hpool, rfl⟩ := h
  exact ⟨hpool, rfl⟩

theorem step_evictStale (h : step cfg w .evictStale = some w') :
    w.pool.step cfg (.evictStale w.clock) = some w'.pool ∧ w'.clock = w.clock := by
  simp only [step, map_eq_some_iff] at h
  obtain ⟨pool, hpool, rfl⟩ := h
  exact ⟨hpool, rfl⟩

/-- the operation on the pool releases what the step of the worker releases -/
def Matches (w : Worker P S) (e : WorkerEvent P S) (op : PoolEvent P S) : Prop :=
  ∀ p s now node, op = .release p (some s) now node → now = w.clock ∧ ∃ i, e = .call i (.poolRelease p s) node

theorem pool_step {e : WorkerEvent P S} (h : step cfg w e = some w') :
    w'.pool = w.pool ∨ ∃ op, w.pool.step cfg op = some w'.pool ∧ w.Matches e op := by
  cases e with
  | passed now =>
    obtain ⟨-, rfl⟩ := of_ite_some h
    exact .inl rfl
  | forward call =>
    cases h
    exact .inl rfl
  | call i e node =>
    have hpool := (step_call h).1
    unfold onPool at hpool
    split_ifs at hpool
    cases hevent : poolEvent w.clock node e with
    | none =>
      rw [hevent] at hpool
      exact .inl (some.inj hpool).symm
    | some op =>
      rw [hevent] at hpool
      refine .inr ⟨op, hpool, ?_⟩
      rintro p s now node' rfl
      cases e with
      | poolRelease p s =>
        cases hevent
        exact ⟨rfl, i, rfl⟩
      | _ => cases hevent
  | evictStale => exact .inr ⟨_, (step_evictStale h).1, fun _ _ _ _ heq => by cases heq⟩

theorem pool_run (events : List (WorkerEvent P S)) (w : Worker P S) (hrun : run (step cfg) {} events = some w) :
    ∃ ops, run (PoolRun.step cfg) {} ops = some w.pool := by
  refine run_induct (fun _ w => ∃ ops, run (PoolRun.step cfg) {} ops = some w.pool) ⟨[], rfl⟩ ?_ events w hrun
  rintro - w e w' - ⟨ops, hops⟩ hstep
  rcases pool_step hstep with heq | ⟨op, hop, -⟩
  · exact ⟨ops, heq ▸ hops⟩
  · exact ⟨ops ++ [op], by rw [run_snoc, hops, bind_some, hop]⟩

/-! ## Where the entries come from -/

omit [DecidableEq S] in
theorem mem_entries {s t : PoolRun P S} {op : PoolEvent P S} (hlinked : UpstreamStreamPool.Linked s.pool)
    (hordered : UpstreamStreamPool.Ordered s.pool.idleEntries) (hstep : s.step cfg op = some t) {e : IdleEntry P S}
    (he : e ∈ t.pool.idleEntries) :
    e ∈ s.pool.idleEntries ∨ op = .release e.peer (some e.stream) e.idleSince e.node := by
  cases op with
  | acquire p =>
    cases hstep
    rw [(linked_acquire hlinked p).2.2] at he
    exact .inl (mem_filter.1 he).1
  | release p stream now node =>
    obtain ⟨⟨-, hnode⟩, rfl⟩ := of_ite_some hstep
    cases stream with
    | none => exact .inl he
    | some stream =>
      have hsub := PoolRun.sublist_released (linked_release cfg hlinked p stream now hnode).2
      rcases mem_append.1 (hsub.subset he) with hold | hnew
      · exact .inl hold
      · rw [mem_singleton.1 hnew]
        exact .inr rfl
  | evictStale now =>
    obtain ⟨-, rfl⟩ := of_ite_some hstep
    rw [(linked_evictStale cfg now hlinked hordered).2.1] at he
    exact .inl (mem_filter.1 he).1

def clockOf (events : List (WorkerEvent P S)) : ℕ :=
  events.foldl (fun t e => match e with | .passed now => now | _ => t) 0

omit [DecidableEq P] [DecidableEq S] in
theorem clockOf_snoc (events : List (WorkerEvent P S)) (e : WorkerEvent P S) :
    clockOf (events ++ [e]) = match e with | .passed now => now | _ => clockOf events := by
  rw [clockOf, foldl_append]
  rfl

theorem clock_eq (events : List (WorkerEvent P S)) (w : Worker P S) (hrun : run (step cfg) {} events = some w) :
    w.clock = clockOf events := by
  refine run_induct (fun events w => w.clock = clockOf events) rfl ?_ events w hrun
  intro events w e w' _ ih hstep
  rw [clockOf_snoc]
  cases e with
  | passed now =>
    obtain ⟨-, rfl⟩ := of_ite_some hstep
    rfl
  | forward call =>
    cases hstep
    exact ih
  | call i e node => exact (step_call hstep).2.trans ih
  | evictStale => exact (step_evictStale hstep).2.trans ih

/-- some `EvictStale` of `later` ran when what was released behind `earlier` had reached the timeout -/
def SweptIn (timeout : Double) (earlier later : List (WorkerEvent P S)) : Prop :=
  ∃ l₁ l₂, later = l₁ ++ .evictStale :: l₂ ∧ timeout.reached (clockOf (earlier ++ l₁) - clockOf earlier) = true

/-- the entry was released behind `earlier` -/
def ReleasedAt (e : IdleEntry P S) (earlier later : List (WorkerEvent P S)) : Prop :=
  (∃ i, later.head? = some (.call i (.poolRelease e.peer e.stream) e.node)) ∧ clockOf earlier = e.idleSince

/-- the entry was released behind `earlier`, and no sweep met it old enough since -/
def HeldSince (timeout : Double) (e : IdleEntry P S) (earlier later : List (WorkerEvent P S)) : Prop :=
  ReleasedAt e earlier later ∧ ¬ SweptIn timeout earlier later

omit [DecidableEq P] [DecidableEq S] in
theorem HeldSince.snoc {timeout : Double} {e : IdleEntry P S} {earlier later : List (WorkerEvent P S)}
    {ev : WorkerEvent P S} (h : HeldSince timeout e earlier later)
    (hev : ev = .evictStale → timeout.reached (clockOf (earlier ++ later) - e.idleSince) = false) :
    HeldSince timeout e earlier (later ++ [ev]) := by
  obtain ⟨⟨⟨i, hhead⟩, hclock⟩, hswept⟩ := h
  refine ⟨⟨⟨i, ?_⟩, hclock⟩, ?_⟩
  · obtain ⟨rest, rfl⟩ := List.head?_eq_some_iff.1 hhead
    rfl
  · rintro ⟨l₁, l₂, heq, hreached⟩
    rcases eq_nil_or_concat l₂ with rfl | ⟨l₂, last, rfl⟩
    · obtain ⟨rfl, hlast⟩ := append_inj' heq rfl
      rw [hclock, hev (singleton_injective hlast)] at hreached
      cases hreached
    · rw [concat_eq_append, ← cons_append, ← append_assoc] at heq
      exact hswept ⟨l₁, l₂, (append_inj' heq rfl).1, hreached⟩

theorem mem_step {ev : WorkerEvent P S} (hsound : PoolRun.Sound cfg w.pool) (hstep : step cfg w ev = some w')
    {e : IdleEntry P S} (he : e ∈ w'.pool.pool.idleEntries) :
    e ∈ w.pool.pool.idleEntries ∨ e.idleSince = w.clock ∧ ∃ i, ev = .call i (.poolRelease e.peer e.stream) e.node := by
  rcases pool_step hstep with heq | ⟨op, hop, hmatch⟩
  · exact .inl (heq ▸ he)
  · exact (mem_entries hsound.linked hsound.kept.ordered hop he).imp id (hmatch _ _ _ _)

theorem not_stale_of_evictStale (hsound : PoolRun.Sound cfg w.pool) (hstep : step cfg w .evictStale = some w')
    {e : IdleEntry P S} (he : e ∈ w'.pool.pool.idleEntries) :
    cfg.keepaliveTimeoutSec.reached (w.clock - e.idleSince) = false := by
  obtain ⟨-, heq⟩ := of_ite_some (step_evictStale hstep).1
  rw [← heq, (linked_evictStale cfg w.clock hsound.linked hsound.kept.ordered).2.1] at he
  exact Bool.not_eq_true' _ ▸ (mem_filter.1 he).2

theorem held_unswept (events : List (WorkerEvent P S)) (w : Worker P S) (hrun : run (step cfg) {} events = some w) :
    ∀ e ∈ w.pool.pool.idleEntries, ∃ earlier later, events = earlier ++ later ∧
      HeldSince cfg.keepaliveTimeoutSec e earlier later := by
  refine run_induct (fun events w => ∀ e ∈ w.pool.pool.idleEntries, ∃ earlier later, events = earlier ++ later ∧
    HeldSince cfg.keepaliveTimeoutSec e earlier later) (fun e he => absurd he not_mem_nil) ?_ events w hrun
  intro events w ev w' hrun ih hstep e he
  obtain ⟨ops, hops⟩ := pool_run events w hrun
  have hsound := PoolRun.sound_run hops
  have hclock := clock_eq events w hrun
  rcases mem_step hsound hstep he with hold | ⟨hsince, i, rfl⟩
  · obtain ⟨earlier, later, rfl, hheld⟩ := ih e hold
    refine ⟨earlier, later ++ [ev], append_assoc .., hheld.snoc ?_⟩
    rintro rfl
    rw [← hclock]
    exact not_stale_of_evictStale hsound hstep he
  · refine ⟨events, _, rfl, ⟨⟨i, rfl⟩, hclock.symm.trans hsince.symm⟩, ?_⟩
    -- the release itself is no sweep
    rintro ⟨l₁, l₂, heq, -⟩
    cases l₁ with
    | nil => cases heq
    | cons _ l₁ => simp at heq

theorem handed_out {events : List (WorkerEvent P S)} {i node : ℕ} {p : P} {s : S}
    (hrun : run (step cfg) {} events = some w) (hstep : step cfg w (.call i (.poolAcquire p (some s)) node) = some w') :
    ∃ e ∈ w.pool.pool.idleEntries, e.peer = p ∧ e.stream = s ∧
      w'.pool.pool.idleEntries = w.pool.pool.idleEntries.filter fun e' => e'.node ≠ e.node := by
  obtain ⟨ops, hops⟩ := pool_run events w hrun
  obtain ⟨-, hreturned, hleft⟩ := linked_acquire (PoolRun.sound_run hops).linked p
  have hpool := (step_call hstep).1
  unfold onPool at hpool
  split_ifs at hpool with hanswer
  have hanswer : (w.pool.pool.acquire p).1 = some s := of_decide_eq_true hanswer
  have hpool : w'.pool.pool = (w.pool.pool.acquire p).2 := by
    rw [← some.inj hpool]
  cases hyoung : youngest w.pool.pool.idleEntries p with
  | none =>
    rw [hreturned, hyoung] at hanswer
    cases hanswer
  | some e =>
    rw [hyoung] at hleft hreturned
    obtain ⟨hmem, hpeer⟩ := youngest_mem hyoung
    rw [hpool, hleft]
    exact ⟨e, hmem, hpeer, some.inj (hreturned.symm.trans hanswer), rfl⟩

end Worker

/-! ## What is handed out -/

/-- each entry the pool still holds for the peer and that has reached the timeout was met by a sweep when it was that
old -/
def Swept (timeout : Double) (p : P) (events : List (WorkerEvent P S)) (w : Worker P S) : Prop :=
  ∀ e ∈ w.pool.pool.idleEntries, e.peer = p → timeout.reached (w.clock - e.idleSince) = true →
    ∀ earlier later, events = earlier ++ later → ReleasedAt e earlier later → SweptIn timeout earlier later

/-- **Idle streams expire** as far as they are swept: a stream that a call of `Forward` gets from the pool of its worker
is younger than the timeout, provided `EvictStale` met whatever the pool still holds for that peer and is older. -/
theorem handed_out_fresh (cfg : PoolConfig) (events : List (WorkerEvent P S)) (w w' : Worker P S) (i : ℕ)
    (p : P) (s : S) (node : ℕ) (hrun : run (step cfg) {} events = some w)
    (hstep : w.step cfg (.call i (.poolAcquire p (some s)) node) = some w')
    (hswept : Swept cfg.keepaliveTimeoutSec p events w) :
    ∃ e ∈ w.pool.pool.idleEntries, e.peer = p ∧ e.stream = s ∧
      w'.pool.pool.idleEntries = w.pool.pool.idleEntries.filter (fun e' => e'.node ≠ e.node) ∧
      cfg.keepaliveTimeoutSec.reached (w.clock - e.idleSince) = false := by
  obtain ⟨e, he, hpeer, hstream, hleft⟩ := handed_out hrun hstep
  refine ⟨e, he, hpeer, hstream, hleft, ?_⟩
  obtain ⟨earlier, later, hevents, hreleased, hheld⟩ := held_unswept events w hrun e he
  rw [← Bool.not_eq_true]
  exact fun hreached => hheld (hswept e he hpeer hreached earlier later hevents hreleased)

def firstCall : List (FwdEvent Unit Unit) :=
  [.slotLoad 0, .slotCas 0 true 0, .lbSelect (some ()), .peerAdd (), .peerRequests (), .poolAcquire () none,
    .connect () (some ()), .upstreamWrite () (requestText getCfg ()) (some (requestText getCfg ()).length),
    .relay () (.read (some okResponse)), .relay () .peerSuccess, .relay () (.write okResponse (some okResponse.length)),
    .poolRelease () (), .peerSub (), .slotSub]

/-- that call, a pause, and a second call up to its `Acquire` -/
def pausedRun : List (WorkerEvent Unit Unit) :=
  .forward getCfg :: firstCall.map (.call 0 · 0) ++ .passed 60000000000 :: .forward getCfg ::
    (firstCall.take 5).map (.call 1 · 0)

/-- the same with a sweep behind the pause, the rest of the second call, and a third call a second later -/
def sweptRun : List (WorkerEvent Unit Unit) :=
  .forward getCfg :: firstCall.map (.call 0 · 0) ++ .passed 60000000000 :: .evictStale :: .forward getCfg ::
    firstCall.map (.call 1 · 0) ++ .passed 61000000000 :: .forward getCfg :: (firstCall.take 5).map (.call 2 · 0)

/-- the time and the entries before an `Acquire` of this call that gets a stream -/
def beforeAcquire (events : List (WorkerEvent Unit Unit)) (i : ℕ) : Option (ℕ × List (IdleEntry Unit Unit)) :=
  (run (step {}) {} events).bind fun w =>
    (w.step {} (.call i (.poolAcquire () (some ())) 0)).map fun _ => (w.clock, w.pool.pool.idleEntries)

theorem acquires_of {events : List (WorkerEvent Unit Unit)} {i clock : ℕ} {entries : List (IdleEntry Unit Unit)}
    (h : beforeAcquire events i = some (clock, entries)) :
    ∃ w w', run (step {}) {} events = some w ∧ w.step {} (.call i (.poolAcquire () (some ())) 0) = some w' ∧
      w.clock = clock ∧ w.pool.pool.idleEntries = entries := by
  obtain ⟨w, hrun, h⟩ := bind_eq_some_iff.1 h
  obtain ⟨w', hstep, heq⟩ := map_eq_some_iff.1 h
  obtain ⟨hclock, hentries⟩ := Prod.mk.inj heq
  exact ⟨w, w', hrun, hstep, hclock, hentries⟩

theorem handed_out_fresh_sweptRun : ∃ w w', run (step {}) {} sweptRun = some w ∧
    w.step {} (.call 2 (.poolAcquire () (some ())) 0) = some w' ∧
    ∃ e ∈ w.pool.pool.idleEntries, ({} : PoolConfig).keepaliveTimeoutSec.reached (w.clock - e.idleSince) = false := by
  have hbefore : beforeAcquire sweptRun 2 = some (61000000000, [⟨0, (), 60000000000, ()⟩]) := by decide +kernel
  obtain ⟨w, w', hrun, hstep, hclock, hentries⟩ := acquires_of hbefore
  refine ⟨w, w', hrun, hstep, ?_⟩
  have hswept : Swept ({} : PoolConfig).keepaliveTimeoutSec () sweptRun w := by
    intro e he _ hreached
    have hyoung : ({} : PoolConfig).keepaliveTimeoutSec.reached (61000000000 - 60000000000) = false := by decide +kernel
    rw [hentries, mem_singleton] at he
    rw [hclock, he] at hreached
    exact absurd (hyoung.symm.trans hreached) Bool.false_ne_true
  obtain ⟨e, he, -, -, -, hfresh⟩ := handed_out_fresh {} sweptRun w w' 2 () () 0 hrun hstep hswept
  exact ⟨e, he, hfresh⟩

/-- A minute later the gateway, which never sweeps, hands the stream out. -/
theorem expired_stream_handed_out :
    ∃ w w' : Worker Unit Unit, run (step {}) {} pausedRun = some w ∧
      w.step {} (.call 1 (.poolAcquire () (some ())) 0) = some w' ∧ .evictStale ∉ pausedRun ∧
      ∀ e ∈ w.pool.pool.idleEntries, ({} : PoolConfig).keepaliveTimeoutSec.reached (w.clock - e.idleSince) = true := by
  have hbefore : beforeAcquire pausedRun 1 = some (60000000000, [⟨0, (), 0, ()⟩]) := by decide +kernel
  obtain ⟨w, w', hrun, hstep, hclock, hentries⟩ := acquires_of hbefore
  refine ⟨w, w', hrun, hstep, ?_, ?_⟩
  · simp [pausedRun, firstCall]
  · rw [hclock, hentries]
    decide +kernel

end Coropact.Gateway
