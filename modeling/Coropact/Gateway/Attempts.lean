/-
The attempts of a proxied request, read off its run.

An attempt starts with `pool.Acquire` and holds what was written to and read from its upstream stream and what the
client took of its response. `Linked` ties the attempts to the program point: the attempts behind the current one have
failed, and the current one is where the relay (or the write, or the connect) is.
-/
import Coropact.Gateway.Forward

namespace Coropact.Gateway

open Coropact.Http Coropact.Text Coropact.Machine List

variable {P S : Type*}

/-! ## Reading a run -/

structure Attempt (P : Type*) where
  peer : P
  wrote : Bool := false
  written : Bytes := []
  reads : Bytes := []
  eof : Bool := false
  relayed : Bytes := []
deriving DecidableEq, Repr

def Attempt.add (a : Attempt P) : FwdEvent P S → Attempt P
  | .upstreamWrite _ buf r => { a with wrote := true, written := a.written ++ buf.take (r.getD 0) }
  | .relay _ e =>
    { a with reads := a.reads ++ e.bytesRead, eof := a.eof || e.isEof, relayed := a.relayed ++ e.bytesSent }
  | _ => a

def record (as : List (Attempt P)) (e : FwdEvent P S) : List (Attempt P) :=
  match e with
  | .poolAcquire p _ => { peer := p } :: as
  | e =>
    match as with
    | [] => []
    | a :: past => a.add e :: past

/-- the attempts of a run, the last one first -/
def attempts (es : List (FwdEvent P S)) : List (Attempt P) := es.foldl record []

/-- what an event adds of the 502 to what the client has -/
def FwdEvent.sent502 : FwdEvent P S → Bytes
  | .write502 buf r => buf.take (r.getD 0)
  | _ => []

def FwdEvent.toClient : FwdEvent P S → Bytes
  | .relay _ e => e.bytesSent
  | e => e.sent502

def sent502 (es : List (FwdEvent P S)) : Bytes := es.flatMap FwdEvent.sent502

def toClient (es : List (FwdEvent P S)) : Bytes := es.flatMap FwdEvent.toClient

@[simp] theorem attempts_snoc (es : List (FwdEvent P S)) (e : FwdEvent P S) :
    attempts (es ++ [e]) = record (attempts es) e := by
  simp [attempts, foldl_append]

@[simp] theorem sent502_snoc (es : List (FwdEvent P S)) (e : FwdEvent P S) :
    sent502 (es ++ [e]) = sent502 es ++ e.sent502 := by
  simp [sent502]

@[simp] theorem toClient_snoc (es : List (FwdEvent P S)) (e : FwdEvent P S) :
    toClient (es ++ [e]) = toClient es ++ e.toClient := by
  simp [toClient]

/-- the event is one the attempts do not show -/
def FwdEvent.Silent : FwdEvent P S → Prop
  | .poolAcquire _ _ | .upstreamWrite _ _ _ | .relay _ _ => False
  | _ => True

variable {as : List (Attempt P)} {pc pc' : FwdPc P S} {e : FwdEvent P S} {es : List (FwdEvent P S)} {c : Call P}
  {a : Attempt P}

theorem record_silent (h : e.Silent) (as : List (Attempt P)) : record as e = as := by
  cases e with
  | poolAcquire | upstreamWrite | relay => exact absurd h id
  | _ => cases as <;> rfl

/-! ## Attempts and program points -/

section Linked

variable {cfg : ForwardCfg P}

def Attempt.At (m : Method) (a : Attempt P) (pc : RelayPc) : Prop := RelayInv m a.reads a.relayed a.eof pc

/-- an attempt without a value from `RelayResponse`; one that never got there has read nothing -/
def Attempt.Failed (m : Method) (a : Attempt P) : Prop := a.At m (.returned none)

def Ended (m : Method) (as : List (Attempt P)) : ProxyForwardStatus → Prop
  | .noPeer => as = []
  | .upstreamFailed => as ≠ [] ∧ ∀ a ∈ as, a.Failed m
  | .completed => ∃ a past, as = a :: past ∧ (∃ keepalive, a.At m (.returned (some keepalive))) ∧ ∀ b ∈ past, b.Failed m
  | .clientClosed => False

def Linked (cfg : ForwardCfg P) (as : List (Attempt P)) : FwdPc P S → Prop
  | .start | .slotCas _ | .cbNoPeer | .select | .slotSubNoPeer => as = []
  | .peerAdd _ | .peerRequests _ | .acquire _ => ∀ a ∈ as, a.Failed cfg.request.method
  | .connect c => ∃ past, as = { peer := c.peer } :: past ∧ ∀ b ∈ past, b.Failed cfg.request.method
  | .upstreamWrite c _ buf =>
    ∃ a past, as = a :: past ∧ a.peer = c.peer ∧ a.written ++ buf = requestText cfg c.peer ∧
      a.At cfg.request.method (.head []) ∧ ∀ b ∈ past, b.Failed cfg.request.method
  | .relay c _ pc =>
    ∃ a past, as = a :: past ∧ a.peer = c.peer ∧ a.written = requestText cfg c.peer ∧ a.At cfg.request.method pc ∧
      ∀ b ∈ past, b.Failed cfg.request.method
  | .peerFailure c _ | .retrySelect c _ | .failover c _ | .switchPeer c _ _ =>
    ∃ a past, as = a :: past ∧ a.peer = c.peer ∧ ∀ b ∈ a :: past, b.Failed cfg.request.method
  | .cbFailure _ | .write502 _ _ | .shutdown _ => Ended cfg.request.method as .upstreamFailed
  | .poolRelease c _ =>
    ∃ a past, as = a :: past ∧ a.peer = c.peer ∧ a.At cfg.request.method (.returned (some true)) ∧
      ∀ b ∈ past, b.Failed cfg.request.method
  | .releasePeer _ status | .releaseSlot status | .returned status => Ended cfg.request.method as status

variable {m : Method}

theorem Attempt.At.failed {pending : Bytes} (h : a.At m (.head pending)) : a.Failed m :=
  .inl ⟨h.2.2, h.2.1⟩

theorem fresh_at (m : Method) (p : P) : Attempt.At m { peer := p } (.head []) := ⟨rfl, rfl, rfl⟩

theorem linked_startUpstreamWrite {buf : Bytes} {past : List (Attempt P)} (s : S) (hpeer : a.peer = c.peer)
    (hbuf : a.written ++ buf = requestText cfg c.peer) (hat : a.At cfg.request.method (.head []))
    (hpast : ∀ b ∈ past, b.Failed cfg.request.method) :
    Linked cfg (a :: past) (startUpstreamWrite c s buf) := by
  unfold startUpstreamWrite
  split_ifs with hnil
  · rw [hnil, append_nil] at hbuf
    exact ⟨a, past, rfl, hpeer, hbuf, hat, hpast⟩
  · exact ⟨a, past, rfl, hpeer, hbuf, hat, hpast⟩

theorem linked_afterRelay {past : List (Attempt P)} {r : Relay} (s : S) (hpeer : a.peer = c.peer)
    (hwritten : a.written = requestText cfg c.peer) (hat : a.At cfg.request.method r.pc)
    (hpast : ∀ b ∈ past, b.Failed cfg.request.method) : Linked cfg (a :: past) (afterRelay c s r) := by
  obtain ⟨reported, pc⟩ := r
  cases pc with
  | returned answer =>
    rcases answer with _ | _ | _
    · exact ⟨a, past, rfl, hpeer, forall_mem_cons.2 ⟨hat, hpast⟩⟩
    · exact ⟨a, past, rfl, ⟨false, hat⟩, hpast⟩
    · exact ⟨a, past, rfl, hpeer, hat, hpast⟩
  | _ => exact ⟨a, past, rfl, hpeer, hwritten, hat, hpast⟩

/-- what an attempt delivered is a prefix of its rewritten head and relayed body -/
def Attempt.Due (m : Method) (a : Attempt P) : Prop :=
  a.relayed = [] ∨ ∃ state text, progress m a.reads = some (state, text) ∧ a.relayed <+: text

theorem Attempt.At.due {pc : RelayPc} (h : a.At m pc) : a.Due m := relayInv_sent h

theorem Ended.due {status : ProxyForwardStatus} (h : Ended m as status) :
    ∀ a ∈ as, a.Due m := by
  cases status with
  | noPeer =>
    obtain rfl : as = [] := h
    exact forall_mem_nil _
  | upstreamFailed => exact fun a ha => (h.2 a ha).due
  | completed =>
    obtain ⟨a, past, rfl, ⟨keepalive, hat⟩, hpast⟩ := h
    exact forall_mem_cons.2 ⟨hat.due, fun b hb => (hpast b hb).due⟩
  | clientClosed => exact absurd h id

theorem Linked.due (h : Linked cfg as pc) :
    ∀ a ∈ as, a.Due cfg.request.method := by
  cases pc with
  | start | slotCas | cbNoPeer | select | slotSubNoPeer =>
    obtain rfl : as = [] := h
    exact forall_mem_nil _
  | peerAdd | peerRequests | acquire => exact fun a ha => (h a ha).due
  | connect c =>
    obtain ⟨past, rfl, hpast⟩ := h
    exact forall_mem_cons.2 ⟨.inl rfl, fun b hb => (hpast b hb).due⟩
  | upstreamWrite | relay =>
    obtain ⟨a, past, rfl, -, -, hat, hpast⟩ := h
    exact forall_mem_cons.2 ⟨hat.due, fun b hb => (hpast b hb).due⟩
  | peerFailure | retrySelect | failover | switchPeer =>
    obtain ⟨a, past, rfl, -, hall⟩ := h
    exact fun b hb => (hall b hb).due
  | poolRelease =>
    obtain ⟨a, past, rfl, -, hat, hpast⟩ := h
    exact forall_mem_cons.2 ⟨hat.due, fun b hb => (hpast b hb).due⟩
  | cbFailure | write502 | shutdown => exact fun a ha => (h.2 a ha).due
  | releasePeer | releaseSlot | returned => exact Ended.due h

variable [DecidableEq P]

theorem step_linked (h : Linked cfg as pc) (hmove : FwdMove cfg pc e pc') : Linked cfg (record as e) pc' := by
  cases hmove with
  | slotAdd | slotCasTaken | cbNoPeer | selectNone =>
    obtain rfl : as = [] := h
    rfl
  | selectPeer p =>
    obtain rfl : as = [] := h
    exact forall_mem_nil _
  | slotLoad _ v | slotCasAgain _ v =>
    obtain rfl : as = [] := h
    unfold slotLoop failNoPeer
    split_ifs <;> rfl
  | slotSubNoPeer =>
    obtain rfl : as = [] := h
    fun_cases failNoPeer cfg <;> rfl
  | acquireNone c => exact ⟨as, rfl, h⟩
  | acquirePooled c s => exact linked_startUpstreamWrite s rfl rfl (fresh_at _ _) h
  | connectFailed c =>
    obtain ⟨past, rfl, hpast⟩ := h
    exact ⟨_, past, rfl, rfl, forall_mem_cons.2 ⟨(fresh_at _ _).failed, hpast⟩⟩
  | connected c s =>
    obtain ⟨past, rfl, hpast⟩ := h
    exact linked_startUpstreamWrite s rfl rfl (fresh_at _ _) hpast
  | writeFailed c s buf r hr =>
    obtain ⟨a, past, rfl, hpeer, -, hat, hpast⟩ := h
    exact ⟨_, past, rfl, hpeer, forall_mem_cons.2 ⟨hat.failed, hpast⟩⟩
  | writeSome c s buf n hpos hle =>
    obtain ⟨a, past, rfl, hpeer, hbuf, hat, hpast⟩ := h
    refine linked_startUpstreamWrite s hpeer ?_ hat hpast
    simpa [Attempt.add] using hbuf
  | relay c s pc e r hr =>
    obtain ⟨a, past, rfl, hpeer, hwritten, hat, hpast⟩ := h
    exact linked_afterRelay s hpeer hwritten (relayStep_inv (r := ⟨c.cbReported, pc⟩) hat hr) hpast
  | peerFailure c site =>
    rw [record_silent (by exact trivial)]
    obtain ⟨a, past, rfl, hpeer, hall⟩ := h
    unfold afterFailure giveUp
    split_ifs
    · exact ⟨a, past, rfl, hpeer, hall⟩
    all_goals exact ⟨cons_ne_nil _ _, hall⟩
  | failoverNone c site available _ =>
    rw [record_silent (by exact trivial)]
    obtain ⟨a, past, rfl, -, hall⟩ := h
    fun_cases giveUp cfg c <;> exact ⟨cons_ne_nil _ _, hall⟩
  | switchPeer c site next =>
    rw [record_silent (by exact trivial)]
    obtain ⟨a, past, rfl, -, hall⟩ := h
    exact hall
  | write502Failed | write502Some =>
    rw [record_silent (by exact trivial)]
    simp only [start502, after502]
    split_ifs <;> exact h
  | poolRelease c s =>
    rw [record_silent (by exact trivial)]
    obtain ⟨a, past, rfl, -, hat, hpast⟩ := h
    exact ⟨a, past, rfl, ⟨true, hat⟩, hpast⟩
  | _ =>
    rw [record_silent (by exact trivial)]
    exact h

theorem run_linked [DecidableEq S] (h : run (fwdStep cfg) .start es = some pc) : Linked cfg (attempts es) pc := by
  refine run_induct (fun es pc => Linked cfg (attempts es) pc) ?_ ?_ es pc h
  · rfl
  · intro es pc e pc' _ ih hstep
    rw [attempts_snoc]
    exact step_linked ih (fwdStep_iff.1 hstep)

end Linked

/-! ## The retry budget -/

section Budget

variable {cfg : ForwardCfg P}

/-- every attempt goes to another peer than the attempt before it -/
def Alternating (as : List (Attempt P)) : Prop := (as.map Attempt.peer).IsChain (· ≠ ·)

/-- `n` attempts and `left` retries make up the budget, and the last attempt went to `p` -/
structure Spent (as : List (Attempt P)) (p : P) (n : ℕ) (left : ℤ) : Prop where
  alternating : Alternating as
  total : as.length + left = n
  left_nonneg : 0 ≤ left
  last : ∀ a ∈ as.head?, a.peer = p

def Budget (as : List (Attempt P)) : FwdPc P S → Prop
  | .start | .slotCas _ | .cbNoPeer | .select | .slotSubNoPeer => as = []
  | .peerAdd c | .peerRequests c | .acquire c =>
    Alternating as ∧ as.length + c.retriesLeft = 2 ∧ 0 ≤ c.retriesLeft ∧ ∀ a ∈ as.head?, a.peer ≠ c.peer
  | .connect c | .upstreamWrite c _ _ | .relay c _ _ | .peerFailure c _ => Spent as c.peer 3 c.retriesLeft
  | .retrySelect c _ | .failover c _ => Spent as c.peer 2 c.retriesLeft
  | .switchPeer c _ next => Spent as c.peer 2 c.retriesLeft ∧ next ≠ c.peer
  | _ => Alternating as ∧ as.length ≤ 3

variable {left : ℤ}

theorem Spent.bounded {p : P} {n : ℕ} (h : Spent as p n left) (hn : n ≤ 3) :
    Alternating as ∧ as.length ≤ 3 := by
  refine ⟨h.alternating, ?_⟩
  have htotal := h.total
  have hleft := h.left_nonneg
  omega

theorem Spent.add {past : List (Attempt P)} {p : P} {n : ℕ} (h : Spent (a :: past) p n left) {b : Attempt P}
    (hb : b.peer = a.peer) : Spent (b :: past) p n left := by
  obtain ⟨halt, htotal, hleft, hlast⟩ := h
  refine ⟨?_, htotal, hleft, ?_⟩
  · simpa only [Alternating, map_cons, hb] using halt
  · simpa [hb] using hlast

theorem record_spent {p : P} {n : ℕ} (h : Spent as p n left) (he : ∀ p r, e ≠ .poolAcquire p r) :
    Spent (record as e) p n left := by
  cases as with
  | nil => cases e <;> first | exact h | exact absurd rfl (he _ _)
  | cons a past =>
    cases e with
    | poolAcquire p r => exact absurd rfl (he p r)
    | upstreamWrite | relay => exact h.add rfl
    | _ => exact h

theorem spent_acquire (h : Budget as (.acquire c : FwdPc P S)) (r : Option S) :
    Spent (record as (.poolAcquire c.peer r)) c.peer 3 c.retriesLeft := by
  obtain ⟨halt, htotal, hleft, hlast⟩ := h
  refine ⟨?_, ?_, hleft, by simp [record]⟩
  · cases as with
    | nil => exact .singleton _
    | cons a past =>
      rw [Alternating, record, map_cons, map_cons, isChain_cons_cons]
      exact ⟨(hlast a rfl).symm, halt⟩
  · simp only [record, length_cons]
    push_cast
    omega

theorem budget_startUpstreamWrite (h : Spent as c.peer 3 c.retriesLeft) (s : S) (buf : Bytes) :
    Budget as (startUpstreamWrite c s buf) := by
  unfold startUpstreamWrite
  split_ifs <;> exact h

theorem budget_afterRelay (h : Spent as c.peer 3 c.retriesLeft) (s : S) (r : Relay) : Budget as (afterRelay c s r) := by
  obtain ⟨reported, pc⟩ := r
  cases pc with
  | returned answer =>
    rcases answer with _ | _ | _
    · exact h
    · exact h.bounded le_rfl
    · exact h.bounded le_rfl
  | _ => exact h

theorem budget_afterFailure (h : Spent as c.peer 3 c.retriesLeft) (site : Site) :
    Budget as (afterFailure cfg c site : FwdPc P S) := by
  unfold afterFailure giveUp
  split_ifs with _ hleft
  · obtain ⟨halt, htotal, -, hlast⟩ := h
    refine ⟨halt, ?_, ?_, hlast⟩
    · simp only
      push_cast at htotal ⊢
      omega
    · simp only
      omega
  all_goals exact h.bounded le_rfl

theorem Budget.bounded (h : Budget as pc) :
    Alternating as ∧ as.length ≤ 3 := by
  cases pc with
  | start | slotCas | cbNoPeer | select | slotSubNoPeer =>
    obtain rfl : as = [] := h
    exact ⟨.nil, Nat.zero_le 3⟩
  | peerAdd | peerRequests | acquire =>
    obtain ⟨halt, htotal, hleft, -⟩ := h
    exact ⟨halt, by omega⟩
  | connect | upstreamWrite | relay | peerFailure => exact Spent.bounded h le_rfl
  | retrySelect | failover => exact Spent.bounded h (by decide)
  | switchPeer => exact h.1.bounded (by decide)
  | _ => exact h

variable [DecidableEq P]

theorem selectFailoverPeer_ne {current next : P} {available : List P}
    (h : selectFailoverPeer cfg current available = some next) : next ≠ current := by
  have := List.find?_some h
  simp only [decide_eq_true_eq] at this
  exact this.1

theorem step_budget (h : Budget as pc) (hmove : FwdMove cfg pc e pc') : Budget (record as e) pc' := by
  cases hmove with
  | slotAdd | slotCasTaken | selectNone =>
    obtain rfl : as = [] := h
    rfl
  | cbNoPeer =>
    obtain rfl : as = [] := h
    exact ⟨.nil, Nat.zero_le 3⟩
  | selectPeer p =>
    obtain rfl : as = [] := h
    exact ⟨.nil, rfl, zero_le_two, by simp [record]⟩
  | slotLoad _ v | slotCasAgain _ v =>
    obtain rfl : as = [] := h
    unfold slotLoop failNoPeer
    split_ifs
    · rfl
    · rfl
    · exact ⟨.nil, Nat.zero_le 3⟩
  | slotSubNoPeer =>
    obtain rfl : as = [] := h
    unfold failNoPeer
    split_ifs
    · rfl
    · exact ⟨.nil, Nat.zero_le 3⟩
  | acquireNone c => exact spent_acquire h none
  | acquirePooled c s => exact budget_startUpstreamWrite (spent_acquire h (some s)) s _
  | connectFailed c => exact record_spent h (by simp)
  | connected c s => exact budget_startUpstreamWrite (record_spent h (by simp)) s _
  | writeFailed c s buf r _ => exact record_spent h (by simp)
  | writeSome c s buf n _ _ => exact budget_startUpstreamWrite (record_spent h (by simp)) s _
  | relay c s pc e r _ => exact budget_afterRelay (record_spent h (by simp)) s r
  | peerFailure c site => exact budget_afterFailure (record_spent h (by simp)) site
  | retryOther c site next hne => exact ⟨record_spent h (by simp), hne⟩
  | retrySame => exact record_spent h (by simp)
  | failover c site available next hnext => exact ⟨record_spent h (by simp), selectFailoverPeer_ne hnext⟩
  | failoverNone c => fun_cases giveUp cfg c <;> exact (record_spent h (by simp)).bounded (by decide)
  | switchPeer c site next =>
    obtain ⟨⟨halt, htotal, hleft, hlast⟩, hne⟩ := h
    rw [record_silent (by exact trivial)]
    exact ⟨halt, htotal, hleft, fun a ha => (hlast a ha).trans_ne hne.symm⟩
  | write502Failed | write502Some =>
    rw [record_silent (by exact trivial)]
    simp only [start502, after502]
    split_ifs <;> exact h
  | _ =>
    rw [record_silent (by exact trivial)]
    exact h

/-- **Three attempts at most**, and every retry goes to another peer than the one that just failed. -/
theorem run_budget [DecidableEq S] (h : run (fwdStep cfg) .start es = some pc) :
    Alternating (attempts es) ∧ (attempts es).length ≤ 3 := by
  refine Budget.bounded (run_induct (fun es pc => Budget (attempts es) pc) ?_ ?_ es pc h)
  · rfl
  · intro es pc e pc' _ ih hstep
    rw [attempts_snoc]
    exact step_budget ih (fwdStep_iff.1 hstep)

end Budget

/-! ## What is written upstream -/

section Written

variable {cfg : ForwardCfg P}

/-- behind the last attempt nothing was written -/
def PastUnwritten (as : List (Attempt P)) : Prop := ∀ a ∈ as.tail, a.wrote = false

/-- nothing was written at all, and the call knows it -/
def Unsent (as : List (Attempt P)) (c : Call P) : Prop := c.requestOnWire = false ∧ ∀ a ∈ as, a.wrote = false

/-- what holds of a request that is not idempotent: a retry starts only where nothing was written -/
def Unwritten (as : List (Attempt P)) : FwdPc P S → Prop
  | .start | .slotCas _ | .cbNoPeer | .select | .slotSubNoPeer => as = []
  | .peerAdd c | .peerRequests c | .acquire c | .connect c => Unsent as c
  | .peerFailure c site => PastUnwritten as ∧ (site = .connect → Unsent as c)
  | .retrySelect c site | .failover c site | .switchPeer c site _ => site = .connect ∧ Unsent as c
  | _ => PastUnwritten as

theorem Unsent.past (h : Unsent as c) : PastUnwritten as :=
  fun a ha => h.2 a (mem_of_mem_tail ha)

theorem record_past (h : PastUnwritten as) (he : ∀ p r, e ≠ .poolAcquire p r) : PastUnwritten (record as e) := by
  cases as with
  | nil => cases e <;> exact h
  | cons a past =>
    cases e with
    | poolAcquire p r => exact absurd rfl (he p r)
    | _ => exact h

theorem unsent_acquire (h : Unsent as c) (p : P) (r : Option S) :
    Unsent (record as (.poolAcquire p r)) c :=
  ⟨h.1, forall_mem_cons.2 ⟨rfl, h.2⟩⟩

theorem unwritten_startUpstreamWrite (h : PastUnwritten as) (c : Call P) (s : S) (buf : Bytes) :
    Unwritten as (startUpstreamWrite c s buf) := by
  unfold startUpstreamWrite
  split_ifs <;> exact h

theorem unwritten_afterRelay (h : PastUnwritten as) (c : Call P) (s : S) (r : Relay) :
    Unwritten as (afterRelay c s r) := by
  obtain ⟨reported, pc⟩ := r
  cases pc with
  | returned answer =>
    rcases answer with _ | _ | _
    · exact ⟨h, by simp⟩
    · exact h
    · exact h
  | _ => exact h

theorem unwritten_afterFailure (hm : isIdempotent cfg.request.method = false) {site : Site}
    (h : Unwritten as (.peerFailure c site : FwdPc P S)) :
    Unwritten as (afterFailure cfg c site : FwdPc P S) := by
  obtain ⟨hpast, hconnect⟩ := h
  unfold afterFailure giveUp
  split_ifs with hmay
  · cases site with
    | connect => exact ⟨rfl, hconnect rfl⟩
    | write | relay => exact absurd (hmay.symm.trans hm) (by decide)
  all_goals exact hpast

theorem Unwritten.past (h : Unwritten as pc) : PastUnwritten as := by
  cases pc with
  | start | slotCas | cbNoPeer | select | slotSubNoPeer =>
    obtain rfl : as = [] := h
    exact forall_mem_nil _
  | peerAdd | peerRequests | acquire | connect => exact Unsent.past h
  | peerFailure => exact h.1
  | retrySelect | failover | switchPeer => exact h.2.past
  | _ => exact h

variable [DecidableEq P]

theorem step_unwritten (hm : isIdempotent cfg.request.method = false) (h : Unwritten as pc)
    (hmove : FwdMove cfg pc e pc') :
    Unwritten (record as e) pc' := by
  cases hmove with
  | slotAdd | slotCasTaken | selectNone =>
    obtain rfl : as = [] := h
    rfl
  | cbNoPeer =>
    obtain rfl : as = [] := h
    exact forall_mem_nil _
  | selectPeer p =>
    obtain rfl : as = [] := h
    exact ⟨rfl, forall_mem_nil _⟩
  | slotLoad _ v | slotCasAgain _ v =>
    obtain rfl : as = [] := h
    unfold slotLoop failNoPeer
    split_ifs
    · rfl
    · rfl
    · exact forall_mem_nil _
  | slotSubNoPeer =>
    obtain rfl : as = [] := h
    unfold failNoPeer
    split_ifs
    · rfl
    · exact forall_mem_nil _
  | acquireNone c => exact unsent_acquire h _ _
  | acquirePooled c s => exact unwritten_startUpstreamWrite (unsent_acquire h _ _).past c s _
  | connectFailed c =>
    rw [record_silent (by exact trivial)]
    exact ⟨Unsent.past h, fun _ => h⟩
  | connected c s => exact unwritten_startUpstreamWrite (record_past (Unsent.past h) (by simp)) c s _
  | writeFailed => exact ⟨record_past h (by simp), by simp⟩
  | writeSome c s buf n _ _ => exact unwritten_startUpstreamWrite (record_past h (by simp)) c s _
  | relay c s pc e r _ => exact unwritten_afterRelay (record_past h (by simp)) c s r
  | peerFailure c site =>
    rw [record_silent (by exact trivial)]
    exact unwritten_afterFailure hm h
  | failoverNone c =>
    rw [record_silent (by exact trivial)]
    fun_cases giveUp cfg c <;> exact h.2.past
  | switchPeer c site next =>
    rw [record_silent (by exact trivial)]
    obtain ⟨-, hwire, hnone⟩ := h
    exact ⟨by simp [Call.switch, hwire], hnone⟩
  | write502Failed | write502Some =>
    rw [record_silent (by exact trivial)]
    simp only [start502, after502]
    split_ifs <;> exact h
  | _ =>
    rw [record_silent (by exact trivial)]
    exact h

/-- **A request that is not idempotent is written at most once**: behind the last attempt nothing was written. -/
theorem run_unwritten [DecidableEq S] (hm : isIdempotent cfg.request.method = false)
    (h : run (fwdStep cfg) .start es = some pc) : PastUnwritten (attempts es) := by
  refine Unwritten.past (run_induct (fun es pc => Unwritten (attempts es) pc) ?_ ?_ es pc h)
  · rfl
  · intro es pc e pc' _ ih hstep
    rw [attempts_snoc]
    exact step_unwritten hm ih (fwdStep_iff.1 hstep)

theorem run_written [DecidableEq S] (h : run (fwdStep cfg) .start es = some pc) :
    ∀ a ∈ attempts es, a.written <+: requestText cfg a.peer := by
  refine run_induct (fun es _ => ∀ a ∈ attempts es, a.written <+: requestText cfg a.peer) ?_ ?_ es pc h
  · exact forall_mem_nil _
  · intro es pc e pc' hrun ih hstep
    have hlink := run_linked hrun
    rw [attempts_snoc]
    cases e with
    | poolAcquire p r => exact forall_mem_cons.2 ⟨List.nil_prefix, ih⟩
    | upstreamWrite s buf r =>
      cases fwdStep_iff.1 hstep with
      | writeFailed c _ _ _ hr =>
        obtain ⟨a, past, has, hpeer, hbuf, -, -⟩ := hlink
        rw [has] at ih ⊢
        refine forall_mem_cons.2 ⟨?_, (forall_mem_cons.1 ih).2⟩
        simpa [Attempt.add, writeRest_eq_none.1 hr] using (forall_mem_cons.1 ih).1
      | writeSome c _ _ n _ _ =>
        obtain ⟨a, past, has, hpeer, hbuf, -, -⟩ := hlink
        rw [has] at ih ⊢
        refine forall_mem_cons.2 ⟨?_, (forall_mem_cons.1 ih).2⟩
        have hpre : a.written ++ buf.take n <+: a.written ++ buf :=
          (prefix_append_right_inj _).2 (List.take_prefix _ _)
        rw [hbuf, ← hpeer] at hpre
        exact hpre
    | relay s e =>
      cases has : attempts es with
      | nil => exact forall_mem_nil _
      | cons a past =>
        rw [has] at ih
        exact forall_mem_cons.2 (forall_mem_cons.1 ih)
    | _ =>
      rw [record_silent (by exact trivial)]
      exact ih

end Written

/-! ## A call up to its relay -/

def getCfg : ForwardCfg Unit where
  request := { method := .get, version := .http11, path := str "/a" }
  iter := []
  forwarded := {}
  peers := [()]
  config := fun _ => { host := str "up", port := 80 }
  maxConcurrentRequests := 1
  hasCb := false
  closable := false

/-- the run of `getCfg` up to the relay -/
def getStart : List (FwdEvent Unit Unit) :=
  [.slotLoad 0, .slotCas 0 true 0, .lbSelect (some ()), .peerAdd (), .peerRequests (), .poolAcquire () (some ()),
    .upstreamWrite () (requestText getCfg ()) (some (requestText getCfg ()).length)]

end Coropact.Gateway
