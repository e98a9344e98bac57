/-
The relay of one upstream response (`ProxyPass::RelayResponse` in `include/coropact/gateway/proxy_pass.h`, with
`WriteAll` of `include/coropact/io/stream_algorithms.h`).

The coroutine is a machine: an event is one call it makes, with the answer. `none` is an error, a timeout included; an
empty read is the end of the stream. `WriteAll` calls `WriteSome` until the buffer is written, so a write event holds
the rest of the buffer and how much of it was taken. The body counter is lowered before the bytes are written here and
after in the source; a failed write ends the relay, so nothing reads the counter in between.

`progress` is the relay as a function of the bytes read so far, however they were cut: the state and the text the client
has to get.
-/
import Coropact.Core.Machine
import Coropact.Gateway.RewriteHeaders

namespace Coropact.Gateway

open Coropact.Http Coropact.Text List Option

/-! ## Model -/

def kReadBuffer : ℕ := 4096

inductive RelayEvent where
  | read (r : Option Bytes)
  | write (buf : Bytes) (r : Option ℕ)
  | peerSuccess
  | cbSuccess
  | cbFailure
deriving DecidableEq, Repr

open RelayEvent

inductive RelayPc where
  | head (pending : Bytes)
  | cbFailure (state : ResponseState) (buf : Bytes)
  | peerSuccess (state : ResponseState) (buf : Bytes)
  | cbSuccess (state : ResponseState) (buf : Bytes)
  | write (state : ResponseState) (buf : Bytes)
  | body (state : ResponseState)
  | returned (r : Option Bool)
deriving DecidableEq, Repr

structure Relay where
  cbReported : Bool
  pc : RelayPc
deriving DecidableEq, Repr

/-- the part of the bytes at hand that is passed on, and the state behind it -/
def forward (state : ResponseState) (chunk : Bytes) : ResponseState × Bytes :=
  if state.framing = .contentLength then
    let n := min chunk.length state.bodyRemaining
    ({ state with bodyRemaining := state.bodyRemaining - n }, chunk.take n)
  else (state, chunk)

/-- the response is complete as far as the relay can tell without the end of the stream -/
def finished (state : ResponseState) : Bool :=
  state.framing = .noBody ∨ (state.framing = .contentLength ∧ state.bodyRemaining = 0)

def afterWrite (state : ResponseState) : RelayPc :=
  if finished state then .returned (some state.upstreamKeepalive) else .body state

def startWrite (state : ResponseState) (buf : Bytes) : RelayPc :=
  if buf = [] then afterWrite state else .write state buf

/-- the header section is complete at `headerEnd` -/
def headDone (method : Method) (hasCb cbReported : Bool) (pending : Bytes) (headerEnd : ℕ) : Relay :=
  let (state, outbound) := rewriteHeaders (pending.take (headerEnd + 4)) method
  let (state', body) := forward state (pending.drop (headerEnd + 4))
  let buf := outbound ++ body
  if cbReported then ⟨true, startWrite state' buf⟩
  else if 500 ≤ state.status then ⟨true, if hasCb then .cbFailure state' buf else startWrite state' buf⟩
  else ⟨true, .peerSuccess state' buf⟩

def relayStep (method : Method) (hasCb : Bool) (r : Relay) : RelayEvent → Option Relay
  | .read answer =>
    match r.pc with
    | .head pending =>
      match answer with
      | none => some { r with pc := .returned none }
      | some chunk =>
        if kReadBuffer < chunk.length then none
        else if chunk = [] then some { r with pc := .returned none }
        else
          match find (CRLF ++ CRLF) (pending ++ chunk) with
          | none => some { r with pc := .head (pending ++ chunk) }
          | some headerEnd => some (headDone method hasCb r.cbReported (pending ++ chunk) headerEnd)
    | .body state =>
      match answer with
      | none => some { r with pc := .returned none }
      | some chunk =>
        if kReadBuffer < chunk.length then none
        else if chunk = [] then some { r with pc := .returned (some false) }
        else some { r with pc := startWrite (forward state chunk).1 (forward state chunk).2 }
    | _ => none
  | .write buf answer =>
    match r.pc with
    | .write state rest =>
      if buf ≠ rest then none
      else
        match answer with
        | none => some { r with pc := .returned none }
        | some n =>
          if rest.length < n then none
          else if n = 0 then some { r with pc := .returned none }
          else some { r with pc := startWrite state (rest.drop n) }
    | _ => none
  | .cbFailure =>
    match r.pc with
    | .cbFailure state buf => some { r with pc := startWrite state buf }
    | _ => none
  | .peerSuccess =>
    match r.pc with
    | .peerSuccess state buf =>
      some { r with pc := if hasCb then .cbSuccess state buf else startWrite state buf }
    | _ => none
  | .cbSuccess =>
    match r.pc with
    | .cbSuccess state buf => some { r with pc := startWrite state buf }
    | _ => none

def RelayEvent.bytesRead : RelayEvent → Bytes
  | .read (some chunk) => chunk
  | _ => []

def RelayEvent.isEof (e : RelayEvent) : Bool := e = .read (some [])

/-- the call did what it was made for: bytes were read, or bytes were written -/
def RelayEvent.answered : RelayEvent → Bool
  | .read answer => answer.any fun chunk => chunk ≠ []
  | .write _ answer => answer.any fun n => n ≠ 0
  | _ => true

def RelayEvent.bytesSent : RelayEvent → Bytes
  | .write buf (some n) => buf.take n
  | _ => []

/-! ## What a step can do -/

inductive RelayMove (method : Method) (hasCb : Bool) : Relay → RelayEvent → Relay → Prop
  | headError (c : Bool) (pending : Bytes) : RelayMove method hasCb ⟨c, .head pending⟩ (.read none) ⟨c, .returned none⟩
  | headEof (c : Bool) (pending : Bytes) :
      RelayMove method hasCb ⟨c, .head pending⟩ (.read (some [])) ⟨c, .returned none⟩
  | headMore (c : Bool) (pending chunk : Bytes) (hne : chunk ≠ []) (hlen : chunk.length ≤ kReadBuffer)
      (hfind : find (CRLF ++ CRLF) (pending ++ chunk) = none) :
      RelayMove method hasCb ⟨c, .head pending⟩ (.read (some chunk)) ⟨c, .head (pending ++ chunk)⟩
  | headDone (c : Bool) (pending chunk : Bytes) (hne : chunk ≠ []) (hlen : chunk.length ≤ kReadBuffer) (headerEnd : ℕ)
      (hfind : find (CRLF ++ CRLF) (pending ++ chunk) = some headerEnd) :
      RelayMove method hasCb ⟨c, .head pending⟩ (.read (some chunk))
        (headDone method hasCb c (pending ++ chunk) headerEnd)
  | bodyError (c : Bool) (state : ResponseState) :
      RelayMove method hasCb ⟨c, .body state⟩ (.read none) ⟨c, .returned none⟩
  | bodyEof (c : Bool) (state : ResponseState) :
      RelayMove method hasCb ⟨c, .body state⟩ (.read (some [])) ⟨c, .returned (some false)⟩
  | bodyChunk (c : Bool) (state : ResponseState) (chunk : Bytes) (hne : chunk ≠ [])
      (hlen : chunk.length ≤ kReadBuffer) :
      RelayMove method hasCb ⟨c, .body state⟩ (.read (some chunk))
        ⟨c, startWrite (forward state chunk).1 (forward state chunk).2⟩
  | writeError (c : Bool) (state : ResponseState) (buf : Bytes) :
      RelayMove method hasCb ⟨c, .write state buf⟩ (.write buf none) ⟨c, .returned none⟩
  | writeZero (c : Bool) (state : ResponseState) (buf : Bytes) :
      RelayMove method hasCb ⟨c, .write state buf⟩ (.write buf (some 0)) ⟨c, .returned none⟩
  | writeSome (c : Bool) (state : ResponseState) (buf : Bytes) (n : ℕ) (hpos : 0 < n) (hle : n ≤ buf.length) :
      RelayMove method hasCb ⟨c, .write state buf⟩ (.write buf (some n)) ⟨c, startWrite state (buf.drop n)⟩
  | cbFailure (c : Bool) (state : ResponseState) (buf : Bytes) :
      RelayMove method hasCb ⟨c, .cbFailure state buf⟩ .cbFailure ⟨c, startWrite state buf⟩
  | peerSuccess (c : Bool) (state : ResponseState) (buf : Bytes) :
      RelayMove method hasCb ⟨c, .peerSuccess state buf⟩ .peerSuccess
        ⟨c, if hasCb then .cbSuccess state buf else startWrite state buf⟩
  | cbSuccess (c : Bool) (state : ResponseState) (buf : Bytes) :
      RelayMove method hasCb ⟨c, .cbSuccess state buf⟩ .cbSuccess ⟨c, startWrite state buf⟩

variable {state : ResponseState} {method : Method} {e : RelayEvent} {r r' : Relay} {reads sent : Bytes}
  {hasCb eof : Bool}

theorem relayStep_iff :
    relayStep method hasCb r e = some r' ↔ RelayMove method hasCb r e r' := by
  constructor
  · obtain ⟨c, pc⟩ := r
    -- a case for each branch of the source; those without a step are closed at once
    fun_cases relayStep method hasCb ⟨c, pc⟩ e <;> intro h <;> cases h
    all_goals
      simp only [not_not, not_lt] at *
      subst_vars
    case mp.case15 n hne hle => exact .writeSome c _ _ n (Nat.pos_of_ne_zero hne) hle
    all_goals constructor <;> assumption
  · intro h
    cases h with
    | headMore c pending chunk hne hlen hfind => simp [relayStep, hne, not_lt.2 hlen, hfind]
    | headDone c pending chunk hne hlen headerEnd hfind => simp [relayStep, hne, not_lt.2 hlen, hfind]
    | bodyChunk c state chunk hne hlen => simp [relayStep, hne, not_lt.2 hlen]
    | writeSome c state buf n hpos hle => simp [relayStep, not_lt.2 hle, Nat.ne_of_gt hpos]
    | _ => simp [relayStep]

/-! ## The relay as a function of the bytes read -/

/-- state and text after the bytes `s`, when the header section is complete in them -/
def progress (method : Method) (s : Bytes) : Option (ResponseState × Bytes) :=
  (find (CRLF ++ CRLF) s).map fun headerEnd =>
    let r := rewriteHeaders (s.take (headerEnd + 4)) method
    let f := forward r.1 (s.drop (headerEnd + 4))
    (f.1, r.2 ++ f.2)

theorem forward_framing (state : ResponseState) (chunk : Bytes) :
    (forward state chunk).1.framing = state.framing ∧ (forward state chunk).1.status = state.status ∧
      (forward state chunk).1.upstreamKeepalive = state.upstreamKeepalive := by
  unfold forward
  split_ifs <;> exact ⟨rfl, rfl, rfl⟩

theorem forward_contentLength (h : state.framing = .contentLength) (chunk : Bytes) :
    (forward state chunk).1.bodyRemaining = state.bodyRemaining - chunk.length ∧
      (forward state chunk).2 = chunk.take state.bodyRemaining := by
  rw [forward, if_pos h]
  refine ⟨?_, ?_⟩
  · simp only
    omega
  · simp only [take_eq_take_iff]
    omega

theorem forward_other (h : state.framing ≠ .contentLength) (chunk : Bytes) :
    forward state chunk = (state, chunk) := by
  rw [forward, if_neg h]

theorem forward_append (state : ResponseState) (a b : Bytes) :
    forward state (a ++ b) =
      ((forward (forward state a).1 b).1, (forward state a).2 ++ (forward (forward state a).1 b).2) := by
  by_cases h : state.framing = .contentLength
  · have h' : (forward state a).1.framing = .contentLength := (forward_framing state a).1.trans h
    have ha := forward_contentLength h a
    have hb := forward_contentLength h' b
    have hab := forward_contentLength h (a ++ b)
    refine Prod.ext ?_ ?_
    · simp only [forward, h, if_true] at hab ha hb ⊢
      simp only [length_append]
      congr 1
      omega
    · rw [hab.2, ha.2, hb.2, ha.1, take_append]
  · rw [forward_other h a, forward_other h b, forward_other h (a ++ b)]

theorem progress_append {s : Bytes} {text : Bytes} (h : progress method s = some (state, text)) (chunk : Bytes) :
    progress method (s ++ chunk) = some ((forward state chunk).1, text ++ (forward state chunk).2) := by
  obtain ⟨headerEnd, hfind, heq⟩ := map_eq_some_iff.1 h
  have hpat : (CRLF ++ CRLF : Bytes) ≠ [] := by decide
  have hle : headerEnd + 4 ≤ s.length := find_length_le hpat hfind
  have hfind' : find (CRLF ++ CRLF) (s ++ chunk) = some headerEnd :=
    find_append_some hpat hfind chunk
  obtain ⟨hstate, htext⟩ := Prod.mk.inj heq
  rw [progress, hfind', map_some, take_append_of_le_length hle, drop_append_of_le_length hle]
  simp only [forward_append, hstate, ← htext, append_assoc]

theorem progress_headDone (method : Method) {s : Bytes} {headerEnd : ℕ} (hfind : find (CRLF ++ CRLF) s = some headerEnd)
    (hasCb c : Bool) : ∃ state text, progress method s = some (state, text) ∧
      headDone method hasCb c s headerEnd =
        if c then ⟨true, startWrite state text⟩
        else if 500 ≤ state.status then ⟨true, if hasCb then .cbFailure state text else startWrite state text⟩
        else ⟨true, .peerSuccess state text⟩ := by
  refine ⟨_, _, by rw [progress, hfind, map_some], ?_⟩
  simp only [headDone, (forward_framing _ _).2.1]

/-! ## The invariant -/

/-- what holds after `reads` were read, the end of the stream too if `eof`, and `sent` was taken by the client -/
def RelayInv (method : Method) (reads sent : Bytes) (eof : Bool) : RelayPc → Prop
  | .head pending => pending = reads ∧ sent = [] ∧ progress method reads = none
  | .cbFailure state buf | .peerSuccess state buf | .cbSuccess state buf =>
    sent = [] ∧ progress method reads = some (state, buf)
  | .write state buf => progress method reads = some (state, sent ++ buf) ∧ buf ≠ []
  | .body state => progress method reads = some (state, sent) ∧ finished state = false
  | .returned none =>
    progress method reads = none ∧ sent = [] ∨ ∃ state text, progress method reads = some (state, text) ∧ sent <+: text
  | .returned (some keepalive) =>
    ∃ state, progress method reads = some (state, sent) ∧
      (finished state = true ∧ keepalive = state.upstreamKeepalive ∨ eof = true ∧ finished state = false ∧
        keepalive = false)

theorem relayInv_startWrite {buf : Bytes} (h : progress method reads = some (state, sent ++ buf)) :
    RelayInv method reads sent eof (startWrite state buf) := by
  unfold startWrite
  split_ifs with hbuf
  · rw [hbuf, append_nil] at h
    unfold afterWrite
    split_ifs with hfin
    · exact ⟨state, h, .inl ⟨hfin, rfl⟩⟩
    · exact ⟨h, by simpa using hfin⟩
  · exact ⟨h, hbuf⟩

/-- **What the client has is a prefix of what is due**, after every step of a relay. -/
theorem relayStep_inv (h : RelayInv method reads sent eof r.pc) (hstep : relayStep method hasCb r e = some r') :
    RelayInv method (reads ++ e.bytesRead) (sent ++ e.bytesSent) (eof || e.isEof) r'.pc := by
  have hmove := relayStep_iff.1 hstep
  cases hmove with
  | headError c pending =>
    obtain ⟨-, hsent, hnone⟩ := h
    exact .inl ⟨by simpa [bytesRead] using hnone, by simpa [bytesSent] using hsent⟩
  | headEof c pending =>
    obtain ⟨-, hsent, hnone⟩ := h
    exact .inl ⟨by simpa [bytesRead] using hnone, by simpa [bytesSent] using hsent⟩
  | headMore c pending chunk hne hlen hfind =>
    obtain ⟨rfl, hsent, -⟩ := h
    refine ⟨rfl, by simpa [bytesSent] using hsent, ?_⟩
    rw [progress, bytesRead, hfind]
    rfl
  | headDone c pending chunk hne hlen headerEnd hfind =>
    obtain ⟨rfl, hsent, -⟩ := h
    obtain ⟨state, text, hprog, heq⟩ := progress_headDone method hfind hasCb c
    have hsent' : sent ++ (read (some chunk)).bytesSent = [] := by rw [hsent]; rfl
    have hstart : ∀ eof, RelayInv method (pending ++ chunk) [] eof (startWrite state text) :=
      fun _ => relayInv_startWrite hprog
    rw [heq, hsent']
    split_ifs
    · exact hstart _
    · exact ⟨rfl, hprog⟩
    · exact hstart _
    · exact ⟨rfl, hprog⟩
  | bodyError c state =>
    obtain ⟨hprog, -⟩ := h
    refine .inr ⟨state, sent, by simpa [bytesRead] using hprog, ?_⟩
    simp [bytesSent]
  | bodyEof c state =>
    obtain ⟨hprog, hfin⟩ := h
    refine ⟨state, ?_, .inr ⟨by simp [isEof], hfin, rfl⟩⟩
    simpa [bytesRead, bytesSent] using hprog
  | bodyChunk c state chunk hne hlen =>
    obtain ⟨hprog, -⟩ := h
    simp only [bytesSent, append_nil]
    exact relayInv_startWrite (progress_append hprog chunk)
  | writeError c state buf =>
    obtain ⟨hprog, -⟩ := h
    refine .inr ⟨state, sent ++ buf, by simpa [bytesRead] using hprog, ?_⟩
    simp [bytesSent]
  | writeZero c state buf =>
    obtain ⟨hprog, -⟩ := h
    refine .inr ⟨state, sent ++ buf, by simpa [bytesRead] using hprog, ?_⟩
    simp [bytesSent]
  | writeSome c state buf n hpos hle =>
    obtain ⟨hprog, -⟩ := h
    refine relayInv_startWrite ?_
    simpa [bytesRead, bytesSent] using hprog
  | cbFailure c state buf =>
    obtain ⟨rfl, hprog⟩ := h
    refine relayInv_startWrite ?_
    simpa [bytesRead, bytesSent] using hprog
  | peerSuccess c state buf =>
    obtain ⟨rfl, hprog⟩ := h
    simp only [bytesRead, append_nil]
    split_ifs
    · exact ⟨rfl, hprog⟩
    · exact relayInv_startWrite hprog
  | cbSuccess c state buf =>
    obtain ⟨rfl, hprog⟩ := h
    refine relayInv_startWrite ?_
    simpa [bytesRead, bytesSent] using hprog

theorem startWrite_ne_failed (state : ResponseState) (buf : Bytes) : startWrite state buf ≠ .returned none := by
  unfold startWrite afterWrite
  split_ifs <;> simp

theorem relayStep_ne_failed (hstep : relayStep method hasCb r e = some r') (he : e.answered = true) :
    r'.pc ≠ .returned none := by
  have hmove := relayStep_iff.1 hstep
  cases hmove with
  | headError | headEof | bodyError | bodyEof | writeError | writeZero =>
    simp [answered] at he
  | headMore => simp
  | headDone c pending chunk hne hlen headerEnd hfind =>
    obtain ⟨state, text, -, heq⟩ := progress_headDone method hfind hasCb c
    rw [heq]
    split_ifs
    · exact startWrite_ne_failed _ _
    · simp
    · exact startWrite_ne_failed _ _
    · simp
  | bodyChunk => exact startWrite_ne_failed _ _
  | writeSome => exact startWrite_ne_failed _ _
  | cbFailure => exact startWrite_ne_failed _ _
  | cbSuccess => exact startWrite_ne_failed _ _
  | peerSuccess =>
    split_ifs
    · simp
    · exact startWrite_ne_failed _ _

/-- the client has nothing before the header section is complete, and then a prefix of what is due -/
theorem relayInv_sent {pc : RelayPc} (h : RelayInv method reads sent eof pc) :
    sent = [] ∨ ∃ state text, progress method reads = some (state, text) ∧ sent <+: text := by
  cases pc with
  | head pending => exact .inl h.2.1
  | cbFailure state buf => exact .inl h.1
  | peerSuccess state buf => exact .inl h.1
  | cbSuccess state buf => exact .inl h.1
  | write state buf => exact .inr ⟨state, _, h.1, prefix_append _ _⟩
  | body state => exact .inr ⟨state, _, h.1, prefix_rfl⟩
  | returned answer =>
    cases answer with
    | none => exact h.imp_left And.right
    | some keepalive =>
      obtain ⟨state, hp, -⟩ := h
      exact .inr ⟨state, _, hp, prefix_rfl⟩

end Coropact.Gateway
