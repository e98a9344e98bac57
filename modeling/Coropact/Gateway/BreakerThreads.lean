/-
The circuit breaker (`include/coropact/gateway/circuit_breaker.h`) with any number of threads, one atomic access at a
time.

The memory is sequentially consistent: it holds the atomics and the clock, and every event is one access of one thread
with the answer it got, or an advance of the clock. A call begins with its load of `state_` and returns with its last
access. The weak CAS of the loops may fail although the value is the expected one; the strong CAS on `state_` fails only
if it is not. A transition of the breaker is a CAS into a value no other call acts on, stores to the other atomics, and
the store that publishes the new state.
-/
import Coropact.Gateway.CircuitBreaker

namespace Coropact.Gateway

open Coropact.Machine Function Option

/-! ## Model -/

inductive BreakerMethod where
  | allowRequest | onSuccess | onFailure
deriving DecidableEq, Repr

/-- the transitions: a probe cycle begins, is given up, ends well, ends badly; too many failures in CLOSED -/
inductive Transition where
  | reopen | stall | close | fail | trip
deriving DecidableEq, Repr

namespace Transition

def source : Transition → BreakerState
  | reopen => .kOpen
  | stall | close | fail => .kHalfOpen
  | trip => .kClosed

def via : Transition → BreakerState
  | reopen => .kTransitioningToHalfOpen
  | close => .kTransitioningToClosed
  | stall | fail | trip => .kTransitioningToOpen

def target : Transition → BreakerState
  | reopen => .kHalfOpen
  | close => .kClosed
  | stall | fail | trip => .kOpen

end Transition

/-- the stores of a transition; without an argument they store 0, and `transitions` is the `fetch_add` -/
inductive BreakerStore where
  | counts | successes | requests | probe | transitions
  | entered (now : BitVec 64)
deriving DecidableEq, Repr

def CircuitBreaker.put (b : CircuitBreaker) : BreakerStore → CircuitBreaker
  | .counts => { b with closedCounts := 0 }
  | .successes => { b with halfOpenSuccessCount := 0 }
  | .requests => { b with halfOpenRequests := 0 }
  | .probe => { b with halfOpenProbeMs := 0 }
  | .transitions => { b with transitionCount := b.transitionCount + 1 }
  | .entered now => { b with openEnteredMs := now }

open CircuitBreaker

/-- the stores between CAS and publication, in the order of the source -/
def Transition.stores (now : BitVec 64) : Transition → List BreakerStore
  | .reopen => [.requests, .successes, .probe, .transitions]
  | .close => [.counts, .successes, .requests, .probe, .transitions]
  | .stall | .fail | .trip => [.entered now, .successes, .requests, .probe, .transitions]

inductive Access where
  /-- the first load of `state_` -/
  | enter (method : BreakerMethod) (seen : BreakerState)
  | readClock (now : BitVec 64)
  | loadEntered (entered : BitVec 64)
  /-- `compare_exchange_strong` on `state_` -/
  | cas (c : Transition) (seen : BreakerState)
  | store (w : BreakerStore)
  /-- the store to `state_` -/
  | publish (state : BreakerState)
  /-- `half_open_requests_.fetch_add` -/
  | claimSlot (slot : BitVec 64)
  /-- the store to `half_open_probe_ms_` by the call that took `slot`, which then returns true -/
  | grant (now slot : BitVec 64)
  | loadProbe (probeAt : BitVec 64)
  /-- `half_open_success_count_.fetch_add` -/
  | addSuccess (n : BitVec 64)
  | loadCounts (current : BitVec 64)
  /-- the load of `state_` in the loops -/
  | recheck (seen : BreakerState)
  /-- `compare_exchange_weak` on `closed_counts_` -/
  | casCounts (expected desired seen : BitVec 64) (ok : Bool)
  | tick (ms : ℕ)
deriving DecidableEq, Repr

structure SharedBreaker where
  cells : CircuitBreaker := {}
  clock : ℕ := 0
deriving DecidableEq, Repr

def memoryStep (m : SharedBreaker) : Access → Option SharedBreaker
  | .enter _ seen => if seen = m.cells.state then some m else none
  | .readClock now => if now = nowMs m.clock then some m else none
  | .loadEntered entered => if entered = m.cells.openEnteredMs then some m else none
  | .cas c seen =>
    if seen = m.cells.state then
      some (if seen = c.source then { m with cells := { m.cells with state := c.via } } else m)
    else none
  | .store w => some { m with cells := m.cells.put w }
  | .publish state => some { m with cells := { m.cells with state := state } }
  | .claimSlot slot =>
    if slot = m.cells.halfOpenRequests then some { m with cells := { m.cells with halfOpenRequests := slot + 1 } }
      else none
  | .grant now _ => some { m with cells := { m.cells with halfOpenProbeMs := now } }
  | .loadProbe probeAt => if probeAt = m.cells.halfOpenProbeMs then some m else none
  | .addSuccess n =>
    if n = m.cells.halfOpenSuccessCount then some { m with cells := { m.cells with halfOpenSuccessCount := n + 1 } }
      else none
  | .loadCounts current => if current = m.cells.closedCounts then some m else none
  | .recheck seen => if seen = m.cells.state then some m else none
  | .casCounts expected desired seen ok =>
    if seen = m.cells.closedCounts ∧ (ok = true → seen = expected) then
      some (if ok then { m with cells := { m.cells with closedCounts := desired } } else m)
    else none
  | .tick ms => some { m with clock := m.clock + ms }

/-- where a thread is: the access it performs next, with the local variables it still uses -/
inductive Pc where
  | idle
  -- `AllowRequest`, OPEN
  | openClock | openEntered (now : BitVec 64) | reopenCas
  -- `AllowRequest`, HALF_OPEN
  | claimClock | claim (now : BitVec 64) | grant (now slot : BitVec 64) | probe (now : BitVec 64)
  | stallCas (now : BitVec 64)
  -- between CAS and publication
  | enteredClock (c : Transition) | storing (c : Transition) (ws : List BreakerStore)
  -- `OnSuccess`
  | successCounts | successLoop (current : BitVec 64) | successCas (current : BitVec 64) | addSuccess | closeCas
  -- `OnFailure`
  | failCas | failureCounts | failureLoop (current : BitVec 64) (failures : BitVec 32)
  | failureCas (current : BitVec 64)
  | tripCas
deriving DecidableEq, Repr

section Threads

variable (cfg : CircuitBreakerConfig)

/-- after the load of `state_` -/
def afterLoad : BreakerMethod → BreakerState → Pc
  | .allowRequest, .kOpen => .openClock
  | .allowRequest, .kHalfOpen => .claimClock
  | .onSuccess, .kClosed => .successCounts
  | .onSuccess, .kHalfOpen => .addSuccess
  | .onFailure, .kHalfOpen => .failCas
  | .onFailure, .kClosed => .failureCounts
  | _, _ => .idle

def successCounts (current : BitVec 64) : BitVec 64 :=
  if cfg.successLimit ≤ saturatingIncrement (closedSuccesses current) then packClosedCounts 0 0
  else packClosedCounts (closedFailures current) (saturatingIncrement (closedSuccesses current))

/-- after the loop of `OnFailure` -/
def failuresCounted (failures : BitVec 32) : Pc := if cfg.failureLimit ≤ failures then .tripCas else .idle

def threadStep : Pc → Access → Option Pc
  | pc, .tick _ => some pc
  | .idle, .enter method seen => some (afterLoad method seen)
  | .openClock, .readClock now => some (.openEntered now)
  | .openEntered now, .loadEntered entered => some (if now - entered < cfg.timeoutMs then .idle else .reopenCas)
  | .reopenCas, .cas .reopen seen =>
    some (if seen = .kOpen then .storing .reopen (Transition.stores 0 .reopen)
          else if seen = .kHalfOpen then .claimClock else .idle)
  | .claimClock, .readClock now => some (.claim now)
  | .claim now, .claimSlot slot => some (if slot < cfg.maxProbes then .grant now slot else .probe now)
  | .grant now slot, .grant now' slot' => if now' = now ∧ slot' = slot then some .idle else none
  | .probe now, .loadProbe probeAt =>
    some (if 0 < cfg.openTimeout ∧ cfg.timeoutMs ≤ now - probeAt then .stallCas now else .idle)
  | .stallCas now, .cas .stall seen => some (if seen = .kHalfOpen then .storing .stall (Transition.stores now .stall)
      else .idle)
  | .enteredClock c, .readClock now => some (.storing c (c.stores now))
  | .storing c (w :: ws), .store w' => if w' = w then some (.storing c ws) else none
  | .storing c [], .publish state => if state = c.target then some (if c = .reopen then .claimClock else .idle)
      else none
  | .successCounts, .loadCounts current => some (.successLoop current)
  | .successLoop current, .recheck seen => some (if seen = .kClosed then .successCas current else .idle)
  | .successCas current, .casCounts expected desired seen ok =>
    if expected = current ∧ desired = successCounts cfg current then some (if ok then .idle else .successLoop seen)
      else none
  | .addSuccess, .addSuccess n => some (if cfg.successLimit.setWidth 64 ≤ n + 1 then .closeCas else .idle)
  | .closeCas, .cas .close seen => some (if seen = .kHalfOpen then .storing .close (Transition.stores 0 .close)
      else .idle)
  | .failCas, .cas .fail seen => some (if seen = .kHalfOpen then .enteredClock .fail else .idle)
  | .failureCounts, .loadCounts current => some (.failureLoop current 0)
  | .failureLoop current failures, .recheck seen =>
    some (if seen = .kClosed then .failureCas current else failuresCounted cfg failures)
  | .failureCas current, .casCounts expected desired seen ok =>
    let failures := saturatingIncrement (closedFailures current)
    if expected = current ∧ desired = packClosedCounts failures 0 then
      some (if ok then failuresCounted cfg failures else .failureLoop seen failures)
    else none
  | .tripCas, .cas .trip seen => some (if seen = .kClosed then .enteredClock .trip else .idle)
  | _, _ => none

variable {ι : Type*} [DecidableEq ι]

def threadsStep : SharedBreaker × (ι → Pc) → ι × Access → Option (SharedBreaker × (ι → Pc)) :=
  Par.step memoryStep fun _ => threadStep cfg

def threadsInit : SharedBreaker × (ι → Pc) := ({}, fun _ => .idle)

end Threads

/-! ## What a step can do -/

/-- at the counters of CLOSED or at the count of successful probes -/
def Pc.counting : Pc → Bool
  | .successCounts | .successLoop _ | .successCas _ | .addSuccess | .failureCounts | .failureLoop _ _
  | .failureCas _ => true
  | _ => false

def Access.counting : Access → Bool
  | .loadCounts _ | .recheck _ | .casCounts _ _ _ _ | .addSuccess _ => true
  | _ => false

/-- at a CAS on `state_` -/
def Pc.casOf : Pc → Option Transition
  | .reopenCas => some .reopen
  | .stallCas _ => some .stall
  | .closeCas => some .close
  | .failCas => some .fail
  | .tripCas => some .trip
  | _ => none

/-- a step of one thread and what it does to the memory -/
inductive BreakerStep (cfg : CircuitBreakerConfig) (m : SharedBreaker) : Pc → Access → SharedBreaker → Pc → Prop
  | tick (pc : Pc) (ms : ℕ) : BreakerStep cfg m pc (.tick ms) { m with clock := m.clock + ms } pc
  | enter (method : BreakerMethod) :
      BreakerStep cfg m .idle (.enter method m.cells.state) m (afterLoad method m.cells.state)
  | openClock : BreakerStep cfg m .openClock (.readClock (nowMs m.clock)) m (.openEntered (nowMs m.clock))
  | tooSoon (now : BitVec 64) (h : now - m.cells.openEnteredMs < cfg.timeoutMs) :
      BreakerStep cfg m (.openEntered now) (.loadEntered m.cells.openEnteredMs) m .idle
  | timedOut (now : BitVec 64) (h : cfg.timeoutMs ≤ now - m.cells.openEnteredMs) :
      BreakerStep cfg m (.openEntered now) (.loadEntered m.cells.openEnteredMs) m .reopenCas
  | missed (pc : Pc) (c : Transition) (hpc : pc.casOf = some c) (hs : m.cells.state ≠ c.source) :
      BreakerStep cfg m pc (.cas c m.cells.state) m .idle
  | joined (hs : m.cells.state = .kHalfOpen) : BreakerStep cfg m .reopenCas (.cas .reopen .kHalfOpen) m .claimClock
  | reopen (hs : m.cells.state = .kOpen) :
      BreakerStep cfg m .reopenCas (.cas .reopen .kOpen)
        { m with cells := { m.cells with state := .kTransitioningToHalfOpen } }
          (.storing .reopen (Transition.stores 0 .reopen))
  | claimClock : BreakerStep cfg m .claimClock (.readClock (nowMs m.clock)) m (.claim (nowMs m.clock))
  | taken (now : BitVec 64) (h : m.cells.halfOpenRequests < cfg.maxProbes) :
      BreakerStep cfg m (.claim now) (.claimSlot m.cells.halfOpenRequests)
        { m with cells := { m.cells with halfOpenRequests := m.cells.halfOpenRequests + 1 } }
        (.grant now m.cells.halfOpenRequests)
  | full (now : BitVec 64) (h : cfg.maxProbes ≤ m.cells.halfOpenRequests) :
      BreakerStep cfg m (.claim now) (.claimSlot m.cells.halfOpenRequests)
        { m with cells := { m.cells with halfOpenRequests := m.cells.halfOpenRequests + 1 } } (.probe now)
  | grant (now slot : BitVec 64) :
      BreakerStep cfg m (.grant now slot) (.grant now slot)
        { m with cells := { m.cells with halfOpenProbeMs := now } } .idle
  | unresolved (now : BitVec 64) :
      BreakerStep cfg m (.probe now) (.loadProbe m.cells.halfOpenProbeMs) m .idle
  | stalled (now : BitVec 64) (hpos : 0 < cfg.openTimeout) (h : cfg.timeoutMs ≤ now - m.cells.halfOpenProbeMs) :
      BreakerStep cfg m (.probe now) (.loadProbe m.cells.halfOpenProbeMs) m (.stallCas now)
  | stall (now : BitVec 64) (hs : m.cells.state = .kHalfOpen) :
      BreakerStep cfg m (.stallCas now) (.cas .stall .kHalfOpen)
        { m with cells := { m.cells with state := .kTransitioningToOpen } }
          (.storing .stall (Transition.stores now .stall))
  | close (hs : m.cells.state = .kHalfOpen) :
      BreakerStep cfg m .closeCas (.cas .close .kHalfOpen)
        { m with cells := { m.cells with state := .kTransitioningToClosed } }
          (.storing .close (Transition.stores 0 .close))
  | fail (hs : m.cells.state = .kHalfOpen) :
      BreakerStep cfg m .failCas (.cas .fail .kHalfOpen)
        { m with cells := { m.cells with state := .kTransitioningToOpen } } (.enteredClock .fail)
  | trip (hs : m.cells.state = .kClosed) :
      BreakerStep cfg m .tripCas (.cas .trip .kClosed)
        { m with cells := { m.cells with state := .kTransitioningToOpen } } (.enteredClock .trip)
  | enteredClock (c : Transition) :
      BreakerStep cfg m (.enteredClock c) (.readClock (nowMs m.clock)) m (.storing c (c.stores (nowMs m.clock)))
  | store (c : Transition) (w : BreakerStore) (ws : List BreakerStore) :
      BreakerStep cfg m (.storing c (w :: ws)) (.store w) { m with cells := m.cells.put w } (.storing c ws)
  | publish (c : Transition) :
      BreakerStep cfg m (.storing c []) (.publish c.target) { m with cells := { m.cells with state := c.target } }
        (if c = .reopen then .claimClock else .idle)
  /-- the counters of CLOSED and the successes of HALF_OPEN -/
  | count (pc : Pc) (a : Access) (counts successes : BitVec 64) (pc' : Pc) (hpc : pc.counting = true)
      (ha : a.counting = true)
      (hpc' : pc'.counting = true ∨ pc' = .idle ∨ pc' = .closeCas ∨ pc' = .tripCas) :
      BreakerStep cfg m pc a
        { m with cells := { m.cells with closedCounts := counts, halfOpenSuccessCount := successes } } pc'

section Inversion

variable {cfg : CircuitBreakerConfig} {m m' : SharedBreaker} {pc pc' : Pc} {a : Access}

theorem memoryStep_counting (ha : a.counting = true) (hm : memoryStep m a = some m') :
    ∃ counts successes,
      m' = { m with cells := { m.cells with closedCounts := counts, halfOpenSuccessCount := successes } } := by
  cases a with
  | loadCounts | recheck | addSuccess =>
    obtain ⟨-, rfl⟩ := of_ite_some hm
    exact ⟨_, _, rfl⟩
  | casCounts expected desired seen ok =>
    obtain ⟨-, rfl⟩ := of_ite_some hm
    split_ifs
    · exact ⟨_, _, rfl⟩
    · exact ⟨_, _, rfl⟩
  | enter | readClock | loadEntered | cas | store | publish | claimSlot | grant | loadProbe | tick => cases ha

theorem memoryStep_cas {c : Transition} {seen : BreakerState} (hm : memoryStep m (.cas c seen) = some m') :
    seen = m.cells.state ∧ ((seen = c.source ∧ m' = { m with cells := { m.cells with state := c.via } }) ∨
      (seen ≠ c.source ∧ m = m')) := by
  obtain ⟨hs, rfl⟩ := of_ite_some hm
  split_ifs with h
  · exact ⟨hs, .inl ⟨h, rfl⟩⟩
  · exact ⟨hs, .inr ⟨h, rfl⟩⟩

theorem threadStep_counting (ha : a.counting = true) (ht : threadStep cfg pc a = some pc') :
    pc.counting = true ∧ (pc'.counting = true ∨ pc' = .idle ∨ pc' = .closeCas ∨ pc' = .tripCas) := by
  have hcounted : ∀ failures, failuresCounted cfg failures = .idle ∨ failuresCounted cfg failures = .tripCas := by
    intro failures
    unfold failuresCounted
    split_ifs <;> simp
  revert ht
  fun_cases threadStep cfg pc a <;> intro ht <;> cases ht <;> try cases ha
  case case17 | case24 => exact ⟨rfl, .inl rfl⟩
  case case18 | case19 | case21 =>
    refine ⟨rfl, ?_⟩
    split_ifs <;> first | exact .inl rfl | simp
  case case25 failures _ | case26 failures _ =>
    refine ⟨rfl, ?_⟩
    rcases hcounted failures with h | h <;> split_ifs <;> first | exact .inl rfl | simp [h]

theorem threadStep_move (hm : memoryStep m a = some m') (ht : threadStep cfg pc a = some pc') :
    BreakerStep cfg m pc a m' pc' := by
  have hcount : a.counting = true → BreakerStep cfg m pc a m' pc' := by
    intro ha
    obtain ⟨counts, successes, rfl⟩ := memoryStep_counting ha hm
    obtain ⟨hpc, hpc'⟩ := threadStep_counting ha ht
    exact .count _ _ _ _ _ hpc ha hpc'
  revert ht
  fun_cases threadStep cfg pc a <;> intro ht <;> cases ht <;> try exact hcount rfl
  case case2 | case3 | case6 | case12 =>
    obtain ⟨rfl, rfl⟩ := of_ite_some hm
    constructor
  case case4 now _ =>
    obtain ⟨rfl, rfl⟩ := of_ite_some hm
    split_ifs with h
    · exact .tooSoon now h
    · exact .timedOut now (BitVec.not_lt.1 h)
  case case5 =>
    obtain ⟨hseen, ⟨rfl, rfl⟩ | ⟨hs, rfl⟩⟩ := memoryStep_cas hm
    · exact .reopen hseen.symm
    · subst hseen
      split_ifs with hopen hhalf
      · exact absurd hopen hs
      · rw [hhalf]
        exact .joined hhalf
      · exact .missed _ _ rfl hs
  case case7 now _ =>
    obtain ⟨rfl, rfl⟩ := of_ite_some hm
    split_ifs with h
    · exact .taken now h
    · exact .full now (BitVec.not_lt.1 h)
  case case8 hsame =>
    obtain ⟨rfl, rfl⟩ := hsame
    exact some.inj hm ▸ .grant _ _
  case case10 now _ =>
    obtain ⟨rfl, rfl⟩ := of_ite_some hm
    split_ifs with h
    · exact .stalled now h.1 h.2
    · exact .unresolved now
  case case11 | case22 | case23 | case28 =>
    obtain ⟨hseen, ⟨rfl, rfl⟩ | ⟨hs, rfl⟩⟩ := memoryStep_cas hm
    · constructor
      exact hseen.symm
    · subst hseen
      split_ifs with hsource
      · exact absurd hsource hs
      · exact .missed _ _ rfl hs
  all_goals
    cases hm
    constructor

end Inversion

/-! ## Discipline -/

/-- the value of `state_` the call acts on -/
def Pc.sees : Pc → Option BreakerState
  | .openClock | .openEntered _ | .reopenCas => some .kOpen
  | .claimClock | .claim _ | .grant _ _ | .probe _ | .stallCas _ => some .kHalfOpen
  | _ => none

/-- the transition the thread is in the middle of -/
def Pc.changing : Pc → Option Transition
  | .enteredClock c | .storing c _ => some c
  | _ => none

def Pc.now : Pc → Option (BitVec 64)
  | .openEntered now | .claim now | .grant now _ | .probe now | .stallCas now => some now
  | _ => none

/-- a CAS on `state_` that succeeds -/
def Access.changes : Access → Bool
  | .cas c seen => seen = c.source
  | _ => false

/-- `AllowRequest` sets its variable `s` -/
def Access.readsState : Access → Bool
  | .enter _ _ | .cas .reopen _ | .publish _ => true
  | _ => false

def Access.readsClock : Access → Bool
  | .readClock _ => true
  | _ => false

def Access.ticks : Access → ℕ
  | .tick ms => ms
  | _ => 0

variable {cfg : CircuitBreakerConfig} {m m' : SharedBreaker} {pc pc' : Pc}

theorem counting_none (h : pc.counting = true ∨ pc = .idle ∨ pc = .closeCas ∨ pc = .tripCas) :
    pc.changing = none ∧ pc.sees = none ∧ pc.now = none := by
  rcases h with h | rfl | rfl | rfl
  · cases pc <;> first | exact ⟨rfl, rfl, rfl⟩ | cases h
  all_goals exact ⟨rfl, rfl, rfl⟩

theorem casOf_none {c : Transition} (h : pc.casOf = some c) : pc.changing = none := by
  cases pc <;> first | rfl | cases h

theorem afterLoad_none (method : BreakerMethod) (state : BreakerState) :
    (afterLoad method state).changing = none ∧ (afterLoad method state).now = none := by
  cases method <;> cases state <;> exact ⟨rfl, rfl⟩

theorem BreakerStep.claim_access {slot : BitVec 64} (h : BreakerStep cfg m pc (.claimSlot slot) m' pc') :
    pc.sees = some .kHalfOpen := by
  cases h with
  | taken | full => rfl
  | count _ _ _ _ _ _ ha _ => cases ha

section Discipline

variable {ι : Type*} [DecidableEq ι]

/-- no transition has begun since thread `i` last saw `state_` -/
def Fresh (i : ι) (tr : List (ι × Access)) : Prop :=
  Since (fun e => decide (e.1 = i) && e.2.readsState) (fun e => e.2.changes) tr

/-- the clock has not moved since thread `i` last read it -/
def OnClock (i : ι) (tr : List (ι × Access)) : Prop :=
  Since (fun e => decide (e.1 = i) && e.2.readsClock) (fun e => decide (e.2.ticks ≠ 0)) tr

instance (i : ι) (tr : List (ι × Access)) : Decidable (Fresh i tr) := inferInstanceAs (Decidable (Since _ _ tr))

instance (i : ι) (tr : List (ι × Access)) : Decidable (OnClock i tr) := inferInstanceAs (Decidable (Since _ _ tr))

omit [DecidableEq ι] in
def clockAt (tr : List (ι × Access)) : ℕ := (tr.map fun e => e.2.ticks).sum

inductive StateMove (m : SharedBreaker) (pc : Pc) (a : Access) (m' : SharedBreaker) (pc' : Pc) : Prop
  | stays (hs : m'.cells.state = m.cells.state) (ha : a.changes = false) (hpub : ∀ state, a ≠ .publish state)
      (hchg : pc'.changing = pc.changing)
      (hsees : pc'.sees = none ∨ pc'.sees = pc.sees ∧ a.readsState = false ∨
        pc'.sees = some m.cells.state ∧ a.readsState = true)
  | begins (c : Transition) (hs : m.cells.state = c.source)
      (hm : m' = { m with cells := { m.cells with state := c.via } })
      (ha : a = .cas c c.source) (hpc : pc.casOf = some c) (hchg : pc'.changing = some c) (hsees : pc'.sees = none)
  | ends (c : Transition) (hm : m' = { m with cells := { m.cells with state := c.target } })
      (ha : a = .publish c.target)
      (hpc : pc = .storing c []) (hpc' : pc' = if c = .reopen then .claimClock else .idle)

variable {tr : List (ι × Access)} {s t : SharedBreaker × (ι → Pc)} {a : Access} {e : ι × Access} {i : ι}

theorem BreakerStep.stateMove (h : BreakerStep cfg m pc a m' pc') : StateMove m pc a m' pc' := by
  cases h with
  | tick => exact .stays rfl rfl nofun rfl (.inr (.inl ⟨rfl, rfl⟩))
  | enter method =>
    refine .stays rfl rfl nofun (afterLoad_none method _).1 ?_
    cases method <;> cases m.cells.state <;> first | exact .inl rfl | exact .inr (.inr ⟨rfl, rfl⟩)
  | openClock | timedOut | claimClock | taken | full | stalled =>
    exact .stays rfl rfl nofun rfl (.inr (.inl ⟨rfl, rfl⟩))
  | tooSoon | grant | unresolved | enteredClock => exact .stays rfl rfl nofun rfl (.inl rfl)
  | missed _ c hpc hs => exact .stays rfl (by simp [Access.changes, hs]) nofun (casOf_none hpc).symm (.inl rfl)
  | joined hs => exact .stays rfl rfl nofun rfl (.inr (.inr ⟨hs ▸ rfl, rfl⟩))
  | reopen hs => exact .begins .reopen hs rfl rfl rfl rfl rfl
  | stall now hs => exact .begins .stall hs rfl rfl rfl rfl rfl
  | close hs => exact .begins .close hs rfl rfl rfl rfl rfl
  | fail hs => exact .begins .fail hs rfl rfl rfl rfl rfl
  | trip hs => exact .begins .trip hs rfl rfl rfl rfl rfl
  | store c w ws => exact .stays (by cases w <;> rfl) rfl nofun rfl (.inl rfl)
  | publish c => exact .ends c rfl rfl rfl rfl
  | count _ _ counts successes _ hpc ha hpc' =>
    obtain ⟨hchg, hsees, -⟩ := counting_none hpc'
    refine .stays rfl ?_ ?_ (hchg.trans (counting_none (.inl hpc)).1.symm) (.inl hsees)
    · cases a <;> first | rfl | cases ha
    · rintro state rfl
      cases ha

theorem BreakerStep.clock (h : BreakerStep cfg m pc a m' pc') : m'.clock = m.clock + a.ticks := by
  cases h with
  | count _ _ _ _ _ _ ha _ => cases a <;> first | rfl | cases ha
  | _ => rfl

theorem BreakerStep.now (h : BreakerStep cfg m pc a m' pc') : pc'.now = none ∨ pc'.now = pc.now ∧ a.readsClock = false ∨
      pc'.now = some (nowMs m.clock) ∧ a.readsClock = true := by
  cases h with
  | openClock | claimClock => exact .inr (.inr ⟨rfl, rfl⟩)
  | tick | taken | full | stalled => exact .inr (.inl ⟨rfl, rfl⟩)
  | enter method => exact .inl (afterLoad_none method _).2
  | publish c => cases c <;> exact .inl rfl
  | count _ _ _ _ _ _ _ hpc' => exact .inl (counting_none hpc').2.2
  | _ => exact .inl rfl

theorem fresh_self :
    Fresh i (tr ++ [(i, a)]) ↔ a.readsState = true ∨ a.changes = false ∧ Fresh i tr := by
  simp [Fresh, since_snoc]

theorem fresh_other {j : ι} (h : j ≠ i) :
    Fresh j (tr ++ [(i, a)]) ↔ a.changes = false ∧ Fresh j tr := by
  simp [Fresh, since_snoc, h.symm]

theorem onClock_self :
    OnClock i (tr ++ [(i, a)]) ↔ a.readsClock = true ∨ a.ticks = 0 ∧ OnClock i tr := by
  simp [OnClock, since_snoc]

theorem onClock_other {j : ι} (h : j ≠ i) :
    OnClock j (tr ++ [(i, a)]) ↔ a.ticks = 0 ∧ OnClock j tr := by
  simp [OnClock, since_snoc, h.symm]

omit [DecidableEq ι] in
theorem clockAt_snoc : clockAt (tr ++ [e]) = clockAt tr + e.2.ticks := by
  simp [clockAt]

theorem threadsStep_some (h : threadsStep cfg s e = some t) :
    ∃ pc, BreakerStep cfg s.1 (s.2 e.1) e.2 t.1 pc ∧ t.2 = update s.2 e.1 pc := by
  obtain ⟨pc, hm, ht, hpcs⟩ := Par.step_some h
  exact ⟨pc, threadStep_move hm ht, hpcs⟩

structure Discipline (tr : List (ι × Access)) (s : SharedBreaker × (ι → Pc)) : Prop where
  clock : s.1.clock = clockAt tr
  owner : ∀ i c, (s.2 i).changing = some c → s.1.cells.state = c.via
  alone : ∀ i j c d, (s.2 i).changing = some c → (s.2 j).changing = some d → i = j
  fresh : ∀ i v, (s.2 i).sees = some v → Fresh i tr → s.1.cells.state = v
  reading : ∀ i now, (s.2 i).now = some now →
    (∃ t ≤ s.1.clock, now = nowMs t) ∧ (OnClock i tr → now = nowMs s.1.clock)

theorem Transition.source_ne_via (c d : Transition) : c.source ≠ d.via := by
  cases c <;> cases d <;> decide

theorem Transition.via_ne_sees (c : Transition) (pc : Pc) : pc.sees ≠ some c.via := by
  intro h
  cases pc <;> cases c <;> cases h

theorem step_discipline (h : Discipline tr s) (hstep : threadsStep cfg s e = some t) : Discipline (tr ++ [e]) t := by
  obtain ⟨pc, hmove, hpcs⟩ := threadsStep_some hstep
  obtain ⟨k, a⟩ := e
  dsimp only at hmove hpcs
  have hclock := hmove.clock
  refine ⟨by rw [hclock, h.clock, clockAt_snoc], ?_, ?_, ?_, ?_⟩
  · rw [hpcs, forall_update_iff _ fun i (p : Pc) => ∀ c, p.changing = some c → t.1.cells.state = c.via]
    cases hmove.stateMove with
    | stays hs _ _ hchg =>
      rw [hs, hchg]
      exact ⟨h.owner k, fun j _ => h.owner j⟩
    | begins c hs hm _ _ hchg =>
      refine ⟨fun d hd => ?_, fun j _ d hd => ?_⟩
      · obtain rfl : c = d := some.inj (hchg.symm.trans hd)
        rw [hm]
      · exact absurd (hs.symm.trans (h.owner j d hd)) (c.source_ne_via d)
    | ends c _ _ hpc hpc' =>
      refine ⟨fun d hd => ?_, fun j hj d hd => absurd (h.alone j k d c hd (by rw [hpc]; rfl)) hj⟩
      rw [hpc'] at hd
      split_ifs at hd <;> cases hd
  · intro i j c d hi hj
    rw [hpcs] at hi hj
    cases hmove.stateMove with
    | stays _ _ _ hchg =>
      have hsame : ∀ x, (update s.2 k pc x).changing = (s.2 x).changing := by
        intro x
        by_cases hx : x = k
        · rw [hx, update_self, hchg]
        · rw [update_of_ne hx]
      exact h.alone i j c d (hsame i ▸ hi) (hsame j ▸ hj)
    | begins b hs =>
      have honly : ∀ x d, (update s.2 k pc x).changing = some d → x = k := by
        intro x d hx
        by_contra hne
        rw [update_of_ne hne] at hx
        exact b.source_ne_via d (hs.symm.trans (h.owner x d hx))
      exact (honly i c hi).trans (honly j d hj).symm
    | ends b _ _ hpc hpc' =>
      by_cases hx : i = k
      · rw [hx, update_self, hpc'] at hi
        split_ifs at hi <;> cases hi
      · rw [update_of_ne hx] at hi
        exact absurd (h.alone i k c b hi (by rw [hpc]; rfl)) hx
  · rw [hpcs, forall_update_iff _ fun i (p : Pc) => ∀ v, p.sees = some v → Fresh i (tr ++ [(k, a)]) →
      t.1.cells.state = v]
    refine ⟨fun v hv hf => ?_, fun j hj v hv hf => ?_⟩
    · rw [fresh_self] at hf
      cases hmove.stateMove with
      | stays hs _ _ _ hsees =>
        rcases hsees with hnone | ⟨hsame, hread⟩ | ⟨hseen, -⟩
        · cases hnone.symm.trans hv
        · rw [hread] at hf
          exact hs.trans (h.fresh k v (hsame.symm.trans hv) (hf.resolve_left (by decide)).2)
        · exact hs.trans (some.inj (hseen.symm.trans hv))
      | begins _ _ _ _ _ _ hsees => cases hsees.symm.trans hv
      | ends c hm _ _ hpc' =>
        rw [hpc'] at hv
        rw [hm]
        split_ifs at hv with hc
        · rw [hc]
          exact some.inj hv
        · cases hv
    · obtain ⟨ha, hf⟩ := (fresh_other hj).1 hf
      have hstate := h.fresh j v hv hf
      cases hmove.stateMove with
      | stays hs => exact hs.trans hstate
      | begins c _ _ hcas =>
        rw [hcas, Access.changes, decide_eq_false_iff_not] at ha
        exact absurd rfl ha
      | ends c _ _ hpc =>
        rw [← hstate, h.owner k c (by rw [hpc]; rfl)] at hv
        exact absurd hv (c.via_ne_sees _)
  · rw [hpcs, forall_update_iff _ fun i (p : Pc) => ∀ now, p.now = some now →
      (∃ u ≤ t.1.clock, now = nowMs u) ∧ (OnClock i (tr ++ [(k, a)]) → now = nowMs t.1.clock)]
    have hkeep : ∀ j now, (s.2 j).now = some now → (∃ u ≤ t.1.clock, now = nowMs u) ∧
        (a.ticks = 0 ∧ OnClock j tr → now = nowMs t.1.clock) := by
      intro j now hnow
      obtain ⟨⟨u, hu, heq⟩, hon⟩ := h.reading j now hnow
      refine ⟨⟨u, by omega, heq⟩, fun ⟨hticks, hc⟩ => ?_⟩
      rw [hon hc, hclock, hticks, Nat.add_zero]
    refine ⟨fun now hnow => ?_, fun j hj now hnow => ?_⟩
    · rcases hmove.now with hnone | ⟨hsame, hread⟩ | ⟨hnew, hread⟩
      · cases hnone.symm.trans hnow
      · obtain ⟨hpast, hon⟩ := hkeep k now (hsame.symm.trans hnow)
        refine ⟨hpast, fun hc => hon ?_⟩
        rw [onClock_self, hread] at hc
        exact hc.resolve_left (by decide)
      · obtain rfl := some.inj (hnew.symm.trans hnow)
        have hticks : a.ticks = 0 := by cases a <;> first | rfl | cases hread
        rw [hticks] at hclock
        exact ⟨⟨s.1.clock, by omega, rfl⟩, fun _ => by rw [hclock, Nat.add_zero]⟩
    · obtain ⟨hpast, hon⟩ := hkeep j now hnow
      exact ⟨hpast, fun hc => hon ((onClock_other hj).1 hc)⟩

theorem Discipline.changing_none (hd : Discipline tr s) {v : BreakerState} (h : s.1.cells.state = v)
    (hv : Settled v) (i : ι) :
    (s.2 i).changing = none := by
  cases hc : (s.2 i).changing with
  | none => rfl
  | some c =>
    rw [← h, hd.owner i c hc] at hv
    cases c <;> exact absurd hv id

theorem Discipline.claims {slot : BitVec 64} (hd : Discipline tr s) (hf : Fresh i tr)
    (hstep : threadsStep cfg s (i, .claimSlot slot) = some t) : s.1.cells.state = .kHalfOpen := by
  obtain ⟨pc, hmove, -⟩ := threadsStep_some hstep
  exact hd.fresh i .kHalfOpen hmove.claim_access hf

theorem run_discipline (h : run (threadsStep cfg) threadsInit tr = some s) : Discipline tr s := by
  have h0 : Discipline ([] : List (ι × Access)) threadsInit :=
    ⟨rfl, fun _ _ hc => (by cases hc), fun _ _ _ _ hc => (by cases hc), fun _ _ hc => (by cases hc),
      fun _ _ hc => (by cases hc)⟩
  exact run_induct Discipline h0 (fun _ _ _ _ _ ih hstep => step_discipline ih hstep) tr s h

end Discipline

/-! ## Calls that run alone -/

/-- `AllowRequest` returns true -/
def Access.returnsTrue : Access → Bool
  | .enter .allowRequest .kClosed | .grant _ _ => true
  | _ => false

/-- the call that begins here -/
def Access.entered : Access → Option BreakerMethod
  | .enter method _ => some method
  | _ => none

/-- the call at time `t` -/
def BreakerMethod.callAt (t : ℕ) : BreakerMethod → BreakerCall
  | .allowRequest => .allowRequest t t
  | .onSuccess => .onSuccess
  | .onFailure => .onFailure t

section Alone

variable {ι : Type*} [DecidableEq ι] {cfg : CircuitBreakerConfig} {pcs : ι → Pc} {i : ι}

/-- accesses of thread `i` alone lead from `x` to `y`; `ms` are the calls that begin in them, and `r` tells whether one
of them returns true -/
def Alone (cfg : CircuitBreakerConfig) (pcs : ι → Pc) (i : ι) (x : SharedBreaker × Pc)
    (ms : List BreakerMethod) (r : Bool) (y : SharedBreaker × Pc) : Prop :=
  ∃ l : List Access, run (threadsStep cfg) (x.1, update pcs i x.2) (l.map (i, ·)) = some (y.1, update pcs i y.2) ∧
    l.filterMap Access.entered = ms ∧ l.any Access.returnsTrue = r

theorem Alone.refl {x : SharedBreaker × Pc} : Alone cfg pcs i x [] false x := ⟨[], rfl, rfl, rfl⟩

theorem Alone.step {y : SharedBreaker × Pc} {ms : List BreakerMethod} {r : Bool} (a : Access)
    (hm : memoryStep m a = some m') (ht : threadStep cfg pc a = some pc') (h : Alone cfg pcs i (m', pc') ms r y) :
    Alone cfg pcs i (m, pc) (a.entered.toList ++ ms) (a.returnsTrue || r) y := by
  obtain ⟨l, hrun, rfl, rfl⟩ := h
  refine ⟨a :: l, ?_, by cases h : a.entered <;> simp [h], rfl⟩
  have hstep : threadsStep cfg (m, update pcs i pc) (i, a) = some (m', update pcs i pc') := by
    simp only [threadsStep, Par.step, hm, bind_some, update_self, ht, map_some, update_idem]
  rw [List.map_cons, run_cons, hstep, bind_some, hrun]

theorem Alone.trans {x y z : SharedBreaker × Pc} {ms ms' : List BreakerMethod} {r r' : Bool}
    (h : Alone cfg pcs i x ms r y) (h' : Alone cfg pcs i y ms' r' z) : Alone cfg pcs i x (ms ++ ms') (r || r') z := by
  obtain ⟨l, hrun, rfl, rfl⟩ := h
  obtain ⟨l', hrun', rfl, rfl⟩ := h'
  exact ⟨l ++ l', by rw [List.map_append, run_append, hrun, bind_some, hrun'], List.filterMap_append,
    List.any_append⟩

theorem stores_alone (c : Transition) (ws : List BreakerStore) (b : CircuitBreaker) (t : ℕ) :
    Alone cfg pcs i (⟨b, t⟩, .storing c ws) [] false
      (⟨{ ws.foldl put b with state := c.target }, t⟩, if c = .reopen then .claimClock else .idle) := by
  induction ws generalizing b with
  | nil => exact .step (.publish c.target) rfl (if_pos rfl) .refl
  | cons w ws ih => exact .step (.store w) rfl (if_pos rfl) (ih (b.put w))

variable {b : CircuitBreaker}

theorem fail_alone (hb : b.state = .kHalfOpen) (t : ℕ) :
    Alone cfg pcs i (⟨b, t⟩, .failCas) [] false (⟨b.enterOpen (nowMs t), t⟩, .idle) :=
  .step (.cas .fail .kHalfOpen) (if_pos hb.symm) rfl
    (.step (.readClock (nowMs t)) (if_pos rfl) rfl (stores_alone .fail _ _ t))

theorem trip_alone (hb : b.state = .kClosed) (t : ℕ) :
    Alone cfg pcs i (⟨b, t⟩, .tripCas) [] false (⟨b.enterOpen (nowMs t), t⟩, .idle) :=
  .step (.cas .trip .kClosed) (if_pos hb.symm) rfl
    (.step (.readClock (nowMs t)) (if_pos rfl) rfl (stores_alone .trip _ _ t))

theorem close_alone (hb : b.state = .kHalfOpen) (t : ℕ) :
    Alone cfg pcs i (⟨b, t⟩, .closeCas) [] false (⟨b.enterClosed, t⟩, .idle) :=
  .step (.cas .close .kHalfOpen) (if_pos hb.symm) rfl (stores_alone .close _ _ t)

theorem claim_alone (hb : b.state = .kHalfOpen) (t : ℕ) :
    Alone cfg pcs i (⟨b, t⟩, .claimClock) [] (b.claimProbe cfg (nowMs t)).1 (⟨(b.claimProbe cfg (nowMs t)).2, t⟩,
      .idle) := by
  simp only [claimProbe]
  refine .step (.readClock (nowMs t)) (if_pos rfl) rfl ?_
  by_cases hslot : b.halfOpenRequests < cfg.maxProbes
  · rw [if_pos hslot]
    refine .step (.claimSlot b.halfOpenRequests) (if_pos rfl) (congrArg some (if_pos hslot)) ?_
    exact .step (.grant (nowMs t) b.halfOpenRequests) rfl (if_pos ⟨rfl, rfl⟩) .refl
  · rw [if_neg hslot]
    refine .step (.claimSlot b.halfOpenRequests) (if_pos rfl) (congrArg some (if_neg hslot)) ?_
    by_cases hstall : 0 < cfg.openTimeout ∧ cfg.timeoutMs ≤ nowMs t - b.halfOpenProbeMs
    · rw [if_pos hstall]
      refine .step (.loadProbe b.halfOpenProbeMs) (if_pos rfl) (congrArg some (if_pos hstall)) ?_
      exact .step (.cas .stall .kHalfOpen) (if_pos hb.symm) rfl (stores_alone .stall _ _ t)
    · rw [if_neg hstall]
      exact .step (.loadProbe b.halfOpenProbeMs) (if_pos rfl) (congrArg some (if_neg hstall)) .refl

theorem allowRequest_alone (b : CircuitBreaker) (t : ℕ) :
    Alone cfg pcs i (⟨b, t⟩, .idle) [.allowRequest] (b.perform cfg (.allowRequest t t)).1
      (⟨(b.perform cfg (.allowRequest t t)).2, t⟩, .idle) := by
  have henter : ∀ {r y}, Alone cfg pcs i (⟨b, t⟩, afterLoad .allowRequest b.state) [] r y →
      Alone cfg pcs i (⟨b, t⟩, .idle) [.allowRequest] ((Access.enter .allowRequest b.state).returnsTrue || r) y :=
    fun h => .step (.enter .allowRequest b.state) (if_pos rfl) rfl h
  simp only [perform, allowRequest]
  cases hb : b.state with
  | kClosed =>
    rw [hb] at henter
    exact henter .refl
  | kOpen =>
    rw [hb] at henter
    refine henter (.step (.readClock (nowMs t)) (if_pos rfl) rfl ?_)
    dsimp only
    by_cases h : nowMs t - b.openEnteredMs < cfg.timeoutMs
    · rw [if_pos h]
      exact .step (.loadEntered b.openEnteredMs) (if_pos rfl) (congrArg some (if_pos h)) .refl
    · rw [if_neg h]
      refine .step (.loadEntered b.openEnteredMs) (if_pos rfl) (congrArg some (if_neg h)) ?_
      refine .step (.cas .reopen .kOpen) (if_pos hb.symm) rfl ?_
      exact (stores_alone .reopen _ _ t).trans (claim_alone (b := b.enterHalfOpen) rfl t)
  | kHalfOpen =>
    rw [hb] at henter
    exact henter (claim_alone hb t)
  | kTransitioningToOpen | kTransitioningToHalfOpen | kTransitioningToClosed =>
    rw [hb] at henter
    exact henter .refl

theorem onSuccess_alone (b : CircuitBreaker) (t : ℕ) :
    Alone cfg pcs i (⟨b, t⟩, .idle) [.onSuccess] false (⟨b.onSuccess cfg, t⟩, .idle) := by
  obtain ⟨state, counts, successes, requests, probeMs, enteredMs, transitions⟩ := b
  refine .step (.enter .onSuccess state) (if_pos rfl) rfl ?_
  cases state with
  | kClosed =>
    refine .step (.loadCounts counts) (if_pos rfl) rfl (.step (.recheck .kClosed) rfl rfl ?_)
    refine .step (.casCounts counts (successCounts cfg counts) counts true) (if_pos ⟨rfl, fun _ => rfl⟩)
      (if_pos ⟨rfl, rfl⟩) ?_
    simp only [onSuccess, successCounts, if_true]
    split_ifs
    · exact .refl
    · exact .refl
  | kHalfOpen =>
    simp only [onSuccess]
    by_cases h : cfg.successLimit.setWidth 64 ≤ successes + 1
    · rw [if_pos h]
      exact .step (.addSuccess successes) (if_pos rfl) (congrArg some (if_pos h)) (close_alone rfl t)
    · rw [if_neg h]
      exact .step (.addSuccess successes) (if_pos rfl) (congrArg some (if_neg h)) .refl
  | kOpen | kTransitioningToOpen | kTransitioningToHalfOpen | kTransitioningToClosed => exact .refl

theorem onFailure_alone (b : CircuitBreaker) (t : ℕ) :
    Alone cfg pcs i (⟨b, t⟩, .idle) [.onFailure] false (⟨b.onFailure cfg (nowMs t), t⟩, .idle) := by
  obtain ⟨state, counts, successes, requests, probeMs, enteredMs, transitions⟩ := b
  refine .step (.enter .onFailure state) (if_pos rfl) rfl ?_
  cases state with
  | kClosed =>
    refine .step (.loadCounts counts) (if_pos rfl) rfl (.step (.recheck .kClosed) rfl rfl ?_)
    refine .step (.casCounts counts (packClosedCounts (saturatingIncrement (closedFailures counts)) 0) counts true)
      (if_pos ⟨rfl, fun _ => rfl⟩) (if_pos ⟨rfl, rfl⟩) ?_
    simp only [onFailure, failuresCounted, if_true]
    split_ifs
    · exact trip_alone rfl t
    · exact .refl
  | kHalfOpen => exact fail_alone rfl t
  | kOpen | kTransitioningToOpen | kTransitioningToHalfOpen | kTransitioningToClosed => exact .refl

/-- **A call that is not interleaved** does what `CircuitBreaker.perform` says and returns what it says. -/
theorem runs_alone (method : BreakerMethod) (b : CircuitBreaker) (t : ℕ) :
    Alone cfg pcs i (⟨b, t⟩, .idle) [method] (b.perform cfg (method.callAt t)).1
      (⟨(b.perform cfg (method.callAt t)).2, t⟩, .idle) := by
  cases method with
  | allowRequest => exact allowRequest_alone b t
  | onSuccess => exact onSuccess_alone b t
  | onFailure => exact onFailure_alone b t

/-- a thread waits and then makes a call, alone -/
def callAfter (cfg : CircuitBreakerConfig) (m : SharedBreaker) (c : ι × ℕ × BreakerMethod) :
    Option (Bool × SharedBreaker) :=
  let r := m.cells.perform cfg (c.2.2.callAt (m.clock + c.2.1))
  some (r.1, ⟨r.2, m.clock + c.2.1⟩)

/-- a part of a run that is a call: its thread waits and then makes the accesses of one call of its method -/
def IsCall (c : ι × ℕ × BreakerMethod) (part : List (ι × Access)) : Prop :=
  ∃ l : List Access, part = (c.1, .tick c.2.1) :: l.map (c.1, ·) ∧ l.filterMap Access.entered = [c.2.2]

/-- **A history of calls one after the other is a run of the threads**: for each call accesses of its thread, that make
a call of its method. They end with the cells `CircuitBreaker.perform` leaves, and with its answers. -/
theorem history_is_run (calls : List (ι × ℕ × BreakerMethod)) (m : SharedBreaker) :
    ∃ (parts : List (List (ι × Access))) (m' : SharedBreaker), List.Forall₂ IsCall calls parts ∧
      run (threadsStep cfg) (m, fun _ => .idle) parts.flatten = some (m', fun _ => .idle) ∧
        replies (callAfter cfg) m calls = some (parts.map fun part => part.any fun x => x.2.returnsTrue, m') := by
  induction calls generalizing m with
  | nil => exact ⟨[], m, .nil, rfl, rfl⟩
  | cons c calls ih =>
    obtain ⟨i, ms, method⟩ := c
    obtain ⟨l, hrun, hentered, hanswer⟩ := @runs_alone ι _ cfg (fun _ => .idle) i method m.cells (m.clock + ms)
    obtain ⟨parts, m', hcalls, hparts, hreplies⟩ :=
      ih ⟨(m.cells.perform cfg (method.callAt (m.clock + ms))).2, m.clock + ms⟩
    have hidle : update (fun _ : ι => Pc.idle) i .idle = fun _ => .idle := update_eq_self i _
    have htick : threadsStep cfg (m, fun _ : ι => .idle) (i, .tick ms) = some (⟨m.cells, m.clock + ms⟩, fun _ =>
        .idle) := by
      simp [threadsStep, Par.step, memoryStep, threadStep]
    refine ⟨((i, .tick ms) :: l.map (i, ·)) :: parts, m', .cons ⟨l, rfl, hentered⟩ hcalls, ?_, ?_⟩
    · rw [List.flatten_cons, List.cons_append, run_cons, htick, bind_some, run_append]
      simp only [hidle] at hrun
      rw [hrun, bind_some, hparts]
    · rw [replies, callAfter, bind_some, hreplies, map_some, ← hanswer, List.map_cons]
      have htick : (Access.tick ms).returnsTrue = false := rfl
      simp [htick, List.any_map, Function.comp_def]

end Alone

end Coropact.Gateway
