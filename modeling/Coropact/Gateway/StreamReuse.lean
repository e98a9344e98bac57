/-
What was read from an upstream stream when `Forward` gives it back to the pool.

`ExactFinal` says that the bytes read for the request end where one final response ends that leaves the connection open.
The relay takes an interim response for a final one, does not look at Connection fields of responses without a body and
only at values that are the word close otherwise, and drops or forwards what arrives behind the announced length. So
`ExactFinal` rests on the upstream: `Behaved` says what it must keep to.
-/
import Coropact.Gateway.Attempts
import Coropact.Gateway.RelayFeed

namespace Coropact.Gateway

open Coropact.Http Coropact.Text Coropact.Machine Option

/-- the bytes end where one final response ends, behind interim ones if there are any, and it leaves the connection
open -/
inductive ExactFinal (m : Method) : Bytes → Prop
  | final (h : ResponseHead) (body : Bytes) (hfinal : ¬ h.Interim) (hbody : BodyOf m h body) (hopen : ¬ h.Closes) :
      ExactFinal m (h.bytes ++ body)
  | interim (h : ResponseHead) (rest : Bytes) (hinterim : h.Interim) (hrest : ExactFinal m rest) :
      ExactFinal m (h.bytes ++ rest)

/-- Every line that names close is one the scan takes for it: a Connection field with this word alone. -/
def ClosesPlainly (h : ResponseHead) : Prop :=
  ∀ l ∈ h.lines, ∀ v, lineField l = some (str "connection", v) → str "close" ∈ elements v → closeLine l = true

/-- What the upstream must keep to. Behind a final head without a body: no byte, and the connection stays open. Behind
any other final head: one plain Content-Length, said once or more, and not more bytes than it says; if it closes, it
says so plainly, and then the stream is not given back. Behind an interim head, which ends the relay: all of the final
response, in the same reads; nothing of it is looked at, so nothing less will do. -/
def Behaved (m : Method) (reads : Bytes) : Prop :=
  ∃ (h : ResponseHead) (rest : Bytes), reads = h.bytes ++ rest ∧
    if h.Interim then ExactFinal m rest
    else if h.Bodyless m then ¬ h.Closes ∧ rest = []
    else
      ClosesPlainly h ∧ h.values (str "transfer-encoding") = [] ∧ h.values (str "content-length") ≠ [] ∧
        ∃ n, (∀ v ∈ h.values (str "content-length"), PlainDecimal v n) ∧ rest.length ≤ n

/-! ## Heads at the front of what was read -/

section Head

variable {m : Method} {h : ResponseHead}

theorem head_of_find {reads rest : Bytes} {i : ℕ} (heq : reads = h.bytes ++ rest)
    (hfind : find (CRLF ++ CRLF) reads = some i) :
    headState h m = (rewriteHeaders (reads.take (i + 4)) m).1 ∧ rest = reads.drop (i + 4) := by
  obtain ⟨j, hj, hfind'⟩ := find_head h
  rw [heq, hfind' rest, some.injEq] at hfind
  rw [heq, ← hfind, hj, List.take_left, List.drop_left, rewriteHeaders_bytes]
  exact ⟨rfl, rfl⟩

theorem length_le_of_finished {rest : Bytes} {n : ℕ} (hb : noBody m h.status = false)
    (hte : h.values (str "transfer-encoding") = []) (hne : h.values (str "content-length") ≠ [])
    (hcl : ∀ v ∈ h.values (str "content-length"), PlainDecimal v n)
    (hfin : finished (forward (headState h m) rest).1 = true) : n ≤ rest.length := by
  obtain ⟨hframing, hlen⟩ := (finished_forward_iff hb rest).1 hfin
  have hstate := headState_length hb hte hne hcl
  split_ifs at hstate
  · exact hstate.2 ▸ hlen
  · exact absurd (hframing.symm.trans hstate) (by decide)

theorem closes_iff : h.Closes ↔ ∃ l ∈ h.lines, ∃ v, lineField l = some (str "connection", v) ∧
    str "close" ∈ elements v := by
  constructor
  · rintro ⟨v, hv, hclose⟩
    obtain ⟨l, hl, hfield⟩ := mem_values.1 hv
    exact ⟨l, hl, v, hfield, hclose⟩
  · rintro ⟨l, hl, v, hfield, hclose⟩
    exact ⟨v, mem_values.2 ⟨l, hl, hfield⟩, hclose⟩

/-- a stream that is kept did not say plainly that it closes -/
theorem open_iff (hb : noBody m h.status = false) {rest : Bytes}
    (hkeep : (forward (headState h m) rest).1.upstreamKeepalive = true) : ¬ h.Closes ↔ ClosesPlainly h := by
  rw [(forward_framing _ _).2.2, headState_scan hb] at hkeep
  have hseen := (scan_keepalive hkeep).2
  rw [closes_iff]
  constructor
  · exact fun hopen l hl v hfield hclose => absurd ⟨l, hl, v, hfield, hclose⟩ hopen
  · rintro hplain ⟨l, hl, v, hfield, hclose⟩
    cases (hseen l hl).symm.trans (hplain l hl v hfield hclose)

end Head

/-! ## The stream at its release -/

variable {P S : Type*} {cfg : ForwardCfg P} [DecidableEq P] [DecidableEq S]

theorem released {es : List (FwdEvent P S)} {p : P} {s : S} {pc : FwdPc P S}
    (h : run (fwdStep cfg) .start (es ++ [.poolRelease p s]) = some pc) :
    ∃ a past state, attempts es = a :: past ∧ a.peer = p ∧
      progress cfg.request.method a.reads = some (state, a.relayed) ∧ finished state = true ∧
      state.upstreamKeepalive = true := by
  obtain ⟨pc₀, hrun, hstep⟩ := run_snoc_some h
  cases fwdStep_iff.1 hstep with
  | poolRelease c s =>
    obtain ⟨a, past, has, hpeer, ⟨state, hprog, ⟨hfin, hkeep⟩ | ⟨-, -, hkeep⟩⟩, -⟩ := run_linked hrun
    · exact ⟨a, past, state, has, hpeer, hprog, hfin, hkeep.symm⟩
    · cases hkeep

omit [DecidableEq P] [DecidableEq S] in
theorem exactFinal_iff {m : Method} {reads text : Bytes} {state : ResponseState}
    (hprog : progress m reads = some (state, text)) (hfin : finished state = true)
    (hkeep : state.upstreamKeepalive = true) : ExactFinal m reads ↔ Behaved m reads := by
  constructor
  · intro hexact
    cases hexact with
    | final h body hfinal hbody hopen =>
      rw [progress_head, some.injEq, Prod.mk.injEq] at hprog
      rw [← hprog.1] at hfin hkeep
      refine ⟨h, body, rfl, ?_⟩
      rw [if_neg hfinal]
      unfold BodyOf at hbody
      split_ifs at hbody ⊢ with hless
      · exact ⟨hopen, hbody⟩
      · have hb := noBody_eq_false hfinal hless
        refine ⟨(open_iff hb hkeep).1 hopen, ?_⟩
        rcases hbody with ⟨hchunked, hcl, -⟩ | ⟨hte, hne, hcl⟩
        · have hframing := ((finished_forward_iff hb body).1 hfin).1
          exact absurd (hframing.symm.trans (headState_chunked hb hchunked hcl)) (by decide)
        · exact ⟨hte, hne, body.length, hcl, le_rfl⟩
    | interim h rest hinterim hrest =>
      refine ⟨h, rest, rfl, ?_⟩
      rw [if_pos hinterim]
      exact hrest
  · rintro ⟨h, rest, rfl, hbehaved⟩
    rw [progress_head, some.injEq, Prod.mk.injEq] at hprog
    rw [← hprog.1] at hfin hkeep
    split_ifs at hbehaved with hinterim hless
    · exact .interim h rest hinterim hbehaved
    · refine .final h rest hinterim ?_ hbehaved.1
      rw [BodyOf, if_pos hless]
      exact hbehaved.2
    · obtain ⟨hplain, hte, hne, n, hcl, hle⟩ := hbehaved
      have hb := noBody_eq_false hinterim hless
      have hge := length_le_of_finished hb hte hne hcl hfin
      refine .final h rest hinterim ?_ ((open_iff hb hkeep).2 hplain)
      rw [BodyOf, if_neg hless, le_antisymm hle hge]
      exact .inr ⟨hte, hne, hcl⟩

/-- **Exact reuse of upstream streams, when the upstream behaves.** Whenever `Forward` gives a stream back, what was
read from it for the request ends exactly where one final response ends that leaves the connection open, if and only if
the upstream kept to `Behaved`. -/
theorem released_exact_iff {es : List (FwdEvent P S)} {p : P} {s : S} {pc : FwdPc P S}
    (h : run (fwdStep cfg) .start (es ++ [.poolRelease p s]) = some pc) :
    ∃ a past, attempts es = a :: past ∧ a.peer = p ∧
      (ExactFinal cfg.request.method a.reads ↔ Behaved cfg.request.method a.reads) := by
  obtain ⟨a, past, state, has, hpeer, hprog, hfin, hkeep⟩ := released h
  exact ⟨a, past, has, hpeer, exactFinal_iff hprog hfin hkeep⟩

/-- the run of a GET whose response is read at once and taken by the client at once, up to the release of the stream -/
def wholeRun (response text : Bytes) : List (FwdEvent Unit Unit) :=
  getStart ++
    [.relay () (.read (some response)), .relay () .peerSuccess, .relay () (.write text (some text.length))]

def okResponse : Bytes := str "HTTP/1.1 200 OK\r\nContent-Length: 2\r\n\r\nab"

theorem released_exact_small :
    run (fwdStep getCfg) .start (wholeRun okResponse okResponse ++ [.poolRelease () ()]) =
        some (.releasePeer { peer := (), cbReported := true, requestOnWire := true } .completed) ∧
      (∃ a past, attempts (wholeRun okResponse okResponse) = a :: past ∧ a.peer = () ∧
        (ExactFinal .get a.reads ↔ Behaved .get a.reads)) ∧
      (attempts (wholeRun okResponse okResponse)).map Attempt.reads = [okResponse] ∧ Behaved .get okResponse := by
  have hrun : run (fwdStep getCfg) .start (wholeRun okResponse okResponse ++ [.poolRelease () ()]) =
      some (.releasePeer { peer := (), cbReported := true, requestOnWire := true } .completed) := by decide +kernel
  refine ⟨hrun, released_exact_iff hrun, by decide +kernel, ?_⟩
  refine ⟨okHead [str "Content-Length: 2"] (by decide), str "ab", by decide +kernel, ?_⟩
  rw [if_neg (by decide), if_neg (by decide)]
  refine ⟨fun l hl v hfield => ?_, by decide, by decide, 2, by decide, by decide⟩
  obtain rfl : l = str "Content-Length: 2" := List.mem_singleton.1 hl
  cases hfield

def continueResponse : Bytes := str "HTTP/1.1 100 Continue\r\n\r\n"

/-- the interim response is taken for the final one: the stream goes back to the pool with the final response to come -/
theorem released_after_continue :
    run (fwdStep getCfg) .start (wholeRun continueResponse continueResponse ++ [.poolRelease () ()]) =
        some (.releasePeer { peer := (), cbReported := true, requestOnWire := true } .completed) ∧
      (attempts (wholeRun continueResponse continueResponse)).map Attempt.reads = [continueResponse] ∧
      ¬ ExactFinal .get continueResponse := by
  refine ⟨by decide +kernel, by decide +kernel, fun hexact => ?_⟩
  have hfind : find (CRLF ++ CRLF) continueResponse = some 21 := by decide +kernel
  have hstatus : ((rewriteHeaders (continueResponse.take (21 + 4)) .get).1).status = 100 := by decide +kernel
  generalize hreads : continueResponse = reads at hexact
  cases hexact with
  | final h body hfinal _ _ =>
    have hhead := (head_of_find (m := .get) hreads hfind).1
    rw [← hhead, headState_status] at hstatus
    exact hfinal ⟨by omega, by omega⟩
  | interim h rest _ hrest =>
    have hnil : rest = [] := (head_of_find (m := .get) hreads hfind).2.trans (by decide +kernel)
    generalize hrest' : rest = text at hrest
    have hne : ∀ (h : ResponseHead) (t : Bytes), rest ≠ h.bytes ++ t := by
      intro h t heq
      obtain ⟨j, hj, -⟩ := find_head h
      have hlen := congrArg List.length (hnil.symm.trans heq)
      rw [List.length_append, ← hj, List.length_nil] at hlen
      omega
    cases hrest with
    | final h body => exact hne h body hrest'
    | interim h rest => exact hne h rest hrest'

end Coropact.Gateway
