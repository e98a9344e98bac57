/-
What the client has when its connection is used for another request.

The session goes on behind a forwarded request when `Forward` says completed, and behind the fallback when there was no
peer. Completed means that the relay returned a value: it does so at the end of the upstream stream too, however much of
the response is missing, and for responses that only the end of the connection delimits. The fallback is written with
its result ignored, to a HEAD as well. `Answerable` says what makes up for it.
-/
import Coropact.Gateway.OneResponse
import Coropact.Gateway.Session
import Coropact.Gateway.StreamReuse

namespace Coropact.Gateway

open Coropact.Http Coropact.Text Coropact.Machine Option

/-! ## The rewritten head frames the same body -/

section Head

variable {h : ResponseHead} {m : Method}

theorem rewriteHead_status (h : ResponseHead) : (rewriteHead h).status = h.status := rfl

theorem lineField_rewriteLine {name : Bytes} (hname : name ≠ str "server") (l : Bytes) :
    ((lineField (rewriteLine l)).bind fun nv => if nv.1 = name then some nv.2 else none) =
      (lineField l).bind fun nv => if nv.1 = name then some nv.2 else none := by
  unfold rewriteLine
  split
  · rename_i n v hcut
    split_ifs with hserver
    · have hlow : lowerCopy n = str "server" := (asciiCaseEqual_str (by decide)).1 hserver
      have hnew : lineField (str "Server: runtime-gateway") = some (str "server", str "runtime-gateway") := by decide
      have hold : lineField l = some (str "server", trimBlanks v) := by
        rw [lineField, hcut, map_some, hlow]
      rw [hnew, hold, bind_some, bind_some, if_neg hname.symm, if_neg hname.symm]
    · rfl
  · rfl

theorem rewriteHead_values {name : Bytes} (hname : name ≠ str "server") :
    (rewriteHead h).values name = h.values name := by
  rw [ResponseHead.values, ResponseHead.values, rewriteHead, List.filterMap_map]
  exact List.filterMap_congr fun l _ => lineField_rewriteLine hname l

theorem bodyOf_rewriteHead {body : Bytes} : BodyOf m (rewriteHead h) body ↔ BodyOf m h body := by
  have hcl : (rewriteHead h).values (str "content-length") = h.values (str "content-length") :=
    rewriteHead_values (by decide)
  have hte : (rewriteHead h).values (str "transfer-encoding") = h.values (str "transfer-encoding") :=
    rewriteHead_values (by decide)
  simp only [BodyOf, ResponseHead.Bodyless, ResponseHead.Chunked, rewriteHead_status, hcl, hte]

end Head

/-! ## Whole responses -/

/-- What the upstream must have sent. Behind a final head: nothing where there is no body; at least as many bytes as one
plain Content-Length says, and no more if it does not fit 64 bits; or one chunked body. Behind an interim head, which
ends the relay: all of the final response, in the same reads. -/
inductive Whole (m : Method) : Bytes → Prop
  | bodyless (h : ResponseHead) (hfinal : ¬ h.Interim) (hless : h.Bodyless m) : Whole m h.bytes
  | length (h : ResponseHead) (rest : Bytes) (n : ℕ) (hfinal : ¬ h.Interim) (hbody : ¬ h.Bodyless m)
      (hte : h.values (str "transfer-encoding") = []) (hne : h.values (str "content-length") ≠ [])
      (hcl : ∀ v ∈ h.values (str "content-length"), PlainDecimal v n) (hle : n ≤ rest.length)
      (hfits : n < 2 ^ 64 ∨ n = rest.length) : Whole m (h.bytes ++ rest)
  | chunked (h : ResponseHead) (rest : Bytes) (hfinal : ¬ h.Interim) (hbody : ¬ h.Bodyless m) (hc : h.Chunked)
      (hcl : h.values (str "content-length") = []) (hrest : ChunkedBody rest) : Whole m (h.bytes ++ rest)
  | interim (h : ResponseHead) (rest : Bytes) (hinterim : h.Interim) (hrest : CompleteAnswer m rest) :
      Whole m (h.bytes ++ rest)

theorem forward_noBody {m : Method} {h : ResponseHead} (hb : noBody m h.status = true) (rest : Bytes) :
    (forward (headState h m) rest).2 = rest := by
  rw [forward_other]
  rw [headState_noBody hb]
  exact BodyFraming.noConfusion

theorem forward_length {m : Method} {h : ResponseHead} {rest : Bytes} {n : ℕ} (hb : noBody m h.status = false)
    (hte : h.values (str "transfer-encoding") = []) (hne : h.values (str "content-length") ≠ [])
    (hcl : ∀ v ∈ h.values (str "content-length"), PlainDecimal v n) (hle : n ≤ rest.length)
    (hfits : n < 2 ^ 64 ∨ n = rest.length) : (forward (headState h m) rest).2.length = n := by
  have hstate := headState_length hb hte hne hcl
  split_ifs at hstate with hn
  · rw [(forward_contentLength hstate.1 rest).2, hstate.2]
    simpa using hle
  · rw [forward_other (by rw [hstate]; decide)]
    rcases hfits with hlt | heq
    · exact absurd hlt hn
    · exact heq.symm

/-- **A whole response is relayed as a complete one.** -/
theorem whole_complete {m : Method} {reads text : Bytes} {state : ResponseState} (h : Whole m reads)
    (hprog : progress m reads = some (state, text)) : CompleteAnswer m text := by
  have htext : ∀ (h : ResponseHead) (rest : Bytes), reads = h.bytes ++ rest →
      text = (rewriteHead h).bytes ++ (forward (headState h m) rest).2 := by
    rintro h rest rfl
    rw [progress_head, some.injEq, Prod.mk.injEq] at hprog
    exact hprog.2.symm
  -- a final head is followed by a body of the upstream's head, so by one of the rewritten head
  have hfinish : ∀ (h : ResponseHead) (rest : Bytes), reads = h.bytes ++ rest → ¬ h.Interim →
      BodyOf m h (forward (headState h m) rest).2 → CompleteAnswer m text := by
    intro h rest heq hfinal hbody
    rw [htext h rest heq]
    exact .final _ ⟨rewriteHead h, _, rfl, hfinal, bodyOf_rewriteHead.2 hbody⟩
  cases h with
  | bodyless h hfinal hless =>
    refine hfinish h [] (List.append_nil _).symm hfinal ?_
    rw [forward_noBody (noBody_iff.2 (.inl hless)), BodyOf, if_pos hless]
  | length h rest n hfinal hbody hte hne hcl hle hfits =>
    refine hfinish h rest rfl hfinal ?_
    rw [BodyOf, if_neg hbody, forward_length (noBody_eq_false hfinal hbody) hte hne hcl hle hfits]
    exact .inr ⟨hte, hne, hcl⟩
  | chunked h rest hfinal hbody hc hcl hrest =>
    refine hfinish h rest rfl hfinal ?_
    have hframing := headState_chunked (noBody_eq_false hfinal hbody) hc hcl
    rw [forward_other (by rw [hframing]; decide), BodyOf, if_neg hbody]
    exact .inl ⟨hc, hcl, hrest⟩
  | interim h rest hinterim hrest =>
    rw [htext h rest rfl, forward_noBody (noBody_iff.2 (.inr hinterim))]
    exact .interim (rewriteHead h) rest hinterim hrest

/-! ## The session goes on -/

section Reuse

variable {P S : Type*} [DecidableEq P] [DecidableEq S] {core : GatewayCore P} {clientIp : Bytes}

/-- What the request must have met: with an attempt, the last one read a whole response; without one, the request is no
HEAD, the fallback of the route is sane and no write of it fails. -/
def Answerable (job : Job P) (cur : List (SessionEvent P S)) : Prop :=
  match attempts (forwardEvents cur) with
  | [] => job.request.method ≠ .head ∧ job.target.route.fallback.Sane ∧ ∀ e ∈ cur, e.writeFails = false
  | a :: _ => Whole job.request.method a.reads

theorem completed_client {job : Job P} {cur : List (SessionEvent P S)} (h : Calling core job cur (.returned .completed))
    (hclean : EachStep CleanFailure [] (forwardEvents cur)) :
    ∃ a past state, attempts (forwardEvents cur) = a :: past ∧
      progress job.request.method a.reads = some (state, clientBytes cur) := by
  obtain ⟨a, past, has, -, -, hclient⟩ := run_sourced h.run hclean
  obtain ⟨a', past', has', ⟨keepalive, state, hprog, -⟩, -⟩ := run_linked h.run
  obtain ⟨rfl, rfl⟩ := List.cons.inj (has.symm.trans has')
  refine ⟨a, past, state, has, ?_⟩
  rw [h.client, hclient]
  exact hprog

theorem refused_client {job : Job P} {cur : List (SessionEvent P S)} {rest : Bytes} (h : Refused core job cur rest)
    (hclean : EachStep CleanFailure [] (forwardEvents cur)) :
    attempts (forwardEvents cur) = [] ∧ ∃ date, clientBytes cur ++ rest = proxyUnavailable job.target.route date := by
  obtain ⟨hrun, date, hclient⟩ := h
  have hquiet : Quiet (attempts (forwardEvents cur)) (sent502 (forwardEvents cur)) (toClient (forwardEvents cur)) :=
    run_sourced hrun hclean
  refine ⟨run_linked hrun, date, ?_⟩
  rw [hclient, hquiet.client, List.nil_append]

/-- **A client connection is reused only after a complete response**, for every request whose relays fail only while the
client has nothing of the attempt and that is `Answerable`: when the session is about to go on behind a forwarded
request, the client has one complete response to it. -/
theorem client_reuse {l : List (SessionEvent P S)} {s : Session P S} {job : Job P}
    (h : run (sessionStep core clientIp) {} l = some s) (hpc : s.pc = .served (some job))
    (hclean : EachStep CleanFailure [] (forwardEvents (current l))) (hgood : Answerable job (current l)) :
    CompleteAnswer job.request.method (clientBytes (current l)) := by
  have hserved := run_answering h
  rw [hpc] at hserved
  rcases hserved with hcalling | ⟨rest, hrefused, hrest⟩
  · obtain ⟨a, past, state, has, hprog⟩ := completed_client hcalling hclean
    rw [Answerable, has] at hgood
    exact whole_complete hgood hprog
  · obtain ⟨hnone, date, hclient⟩ := refused_client hrefused hclean
    rw [Answerable, hnone] at hgood
    obtain ⟨hmethod, hsane, hwrites⟩ := hgood
    have hnil : rest = [] := by
      rcases hrest with hnil | ⟨e, he, hfails⟩
      · exact hnil
      · exact absurd (hwrites e he) (by simp [hfails])
    rw [hnil, List.append_nil] at hclient
    rw [hclient]
    exact .final _ (renderFallback_complete hmethod _ hsane _ date)

/-- the method of the forwarded request the session is about to go on behind -/
def Session.servedMethod (s : Session P S) : Option Method :=
  match s.pc with
  | .served (some job) => some job.request.method
  | _ => none

omit [DecidableEq P] [DecidableEq S] in
theorem exists_served {r : Option (Session P S)} {m : Method} (h : r.bind Session.servedMethod = some m) :
    ∃ s job, r = some s ∧ s.pc = .served (some job) ∧ job.request.method = m := by
  obtain ⟨⟨p, pc⟩, rfl, hm⟩ := bind_eq_some_iff.1 h
  cases pc with
  | served job =>
    cases job with
    | none => cases hm
    | some job => exact ⟨_, job, rfl, rfl, some.inj hm⟩
  | _ => cases hm

end Reuse

/-! ## Two sessions -/

/-- a gateway with one upstream of one peer behind every path -/
def smallCore : GatewayCore Unit :=
  (GatewayCore.make (str "gw")
    (({} : UpstreamRegistry Unit).add
      { name := str "up", peers := [()], config := fun _ => { host := str "up", port := 80 } }) someDate).addProxyRoute
    (str "/") (str "up") someDate

/-- what `smallCore` sends upstream for a GET with a Host header -/
def smallText : Bytes :=
  buildRequestInto { method := .get, version := .http11, path := str "/", host := str "gw" } [(str "host", str "gw")]
    { host := str "up", port := 80 }
    { clientIp := str "10.0.0.1", scheme := str "http", gatewayName := str "gw", requestId := str "1" }

def smallStart : List (FwdEvent Unit Unit) :=
  [.slotLoad 0, .slotCas 0 true 0, .lbSelect (some ()), .peerAdd (), .peerRequests (), .poolAcquire () (some ()),
    .upstreamWrite () smallText (some smallText.length)]

/-- a session with that GET, given the call from the relay on -/
def smallRun (relay : List (FwdEvent Unit Unit)) : List (SessionEvent Unit Unit) :=
  getRead ++ (smallStart ++ relay).map (.forward (str "up")) ++ [.forwarded someDate]

/-- the upstream closes its stream behind two of five bytes -/
def eofRun : List (SessionEvent Unit Unit) :=
  smallRun [.relay () (.read (some brokenResponse)), .relay () .peerSuccess,
    .relay () (.write brokenResponse (some brokenResponse.length)), .relay () (.read (some [])), .peerSub (), .slotSub]

theorem brokenResponse_not_complete : ¬ CompleteAnswer .get brokenResponse := by
  have hfind : find (CRLF ++ CRLF) brokenResponse = some 34 := by decide +kernel
  have hstate : (rewriteHeaders (brokenResponse.take (34 + 4)) .get).1 =
      { framing := .contentLength, bodyRemaining := 5, upstreamKeepalive := true, status := 200 } := by decide +kernel
  have hdrop : (brokenResponse.drop (34 + 4)).length = 2 := by decide +kernel
  generalize hreads : brokenResponse = reads at hfind hstate hdrop ⊢
  -- a head in front of the text has status 200 and announces five bytes, and two follow
  have hhead : ∀ (h : ResponseHead) (rest : Bytes), reads = h.bytes ++ rest →
      headState h .get = { framing := .contentLength, bodyRemaining := 5, upstreamKeepalive := true, status := 200 } ∧
        h.status = 200 ∧ rest.length = 2 := by
    intro h rest heq
    obtain ⟨h1, h2⟩ := head_of_find (m := .get) heq hfind
    rw [hstate] at h1
    have hstatus : (h.status : ℤ) = 200 := by rw [← headState_status (m := .get), h1]
    exact ⟨h1, by exact_mod_cast hstatus, h2 ▸ hdrop⟩
  intro hcomplete
  cases hcomplete with
  | interim h rest hinterim hrest =>
    obtain ⟨-, hstatus, -⟩ := hhead h rest rfl
    exact absurd hinterim.2 (by omega)
  | final _ hfinal =>
    obtain ⟨h, body, heq, hnot, hbody⟩ := hfinal
    obtain ⟨hframing, hstatus, hlen⟩ := hhead h body heq
    have hless : ¬ h.Bodyless .get := by
      rintro (hm | hs | hs)
      · cases hm
      · omega
      · omega
    have hb := noBody_eq_false hnot hless
    rw [BodyOf, if_neg hless, hlen] at hbody
    rcases hbody with ⟨hc, hcl, -⟩ | ⟨hte, hne, hcl⟩
    · have := headState_chunked hb hc hcl
      rw [hframing] at this
      cases this
    · have := headState_length hb hte hne hcl
      rw [if_pos (by decide), hframing] at this
      exact absurd this.2 (by decide)

/-- the session goes on, and the client has two bytes of a body of five -/
theorem reused_after_eof :
    ∃ s job, run (sessionStep smallCore (str "10.0.0.1")) {} eofRun = some s ∧ s.pc = .served (some job) ∧
      clientBytes (current eofRun) = brokenResponse ∧
      ¬ CompleteAnswer job.request.method (clientBytes (current eofRun)) := by
  have hfacts : (run (sessionStep smallCore (str "10.0.0.1")) {} eofRun).bind Session.servedMethod = some .get ∧
      clientBytes (current eofRun) = brokenResponse := by decide +kernel
  obtain ⟨hserved, hclient⟩ := hfacts
  obtain ⟨s, job, hrun, hpc, hm⟩ := exists_served hserved
  refine ⟨s, job, hrun, hpc, hclient, ?_⟩
  rw [hclient, hm]
  exact brokenResponse_not_complete

def okRun : List (SessionEvent Unit Unit) :=
  smallRun [.relay () (.read (some okResponse)), .relay () .peerSuccess,
    .relay () (.write okResponse (some okResponse.length)), .poolRelease () (), .peerSub (), .slotSub]

theorem whole_okResponse : Whole .get okResponse := by
  have htext : okResponse = (okHead [str "Content-Length: 2"] (by decide)).bytes ++ str "ab" := by decide +kernel
  rw [htext]
  exact .length _ _ 2 (by decide +kernel) (by decide +kernel) (by decide +kernel) (by decide +kernel)
    (by decide +kernel) (by decide) (.inl (by decide))

theorem client_reuse_ok :
    ∃ s job, run (sessionStep smallCore (str "10.0.0.1")) {} okRun = some s ∧ s.pc = .served (some job) ∧
      CompleteAnswer job.request.method (clientBytes (current okRun)) := by
  have hfacts : (run (sessionStep smallCore (str "10.0.0.1")) {} okRun).bind Session.servedMethod = some .get ∧
      EachStep CleanFailure [] (forwardEvents (current okRun)) ∧
      attempts (forwardEvents (current okRun)) =
        [{ peer := (), wrote := true, written := smallText, reads := okResponse, relayed := okResponse }] := by
    decide +kernel
  obtain ⟨hserved, hclean, has⟩ := hfacts
  obtain ⟨s, job, hrun, hpc, hm⟩ := exists_served hserved
  have hgood : Answerable job (current okRun) := by
    rw [Answerable, has, hm]
    exact whole_okResponse
  have hreuse := client_reuse hrun hpc
  exact ⟨s, job, hrun, hpc, hreuse hclean hgood⟩

end Coropact.Gateway
