/-
The relay fed by an upstream that sends one response and then stays silent, in any cuts, with a client that takes every
write (at least one byte of it).

From the start of `RelayResponse` every such schedule either brings it to return or leaves it waiting for a read that is
never answered. `Inevitable` says that the first is what happens, whatever the cuts and the partial writes are.
-/
import Coropact.Gateway.Relay

namespace Coropact.Gateway

open Coropact.Http Coropact.Text Coropact.Machine RelayEvent List Option

/-! ## The fed relay -/

structure Fed where
  chunks : List Bytes
  sent : Bytes
  relay : Relay

inductive Feeds (m : Method) (hasCb : Bool) : Fed → Fed → Prop
  | read (c : Bytes) (cs : List Bytes) (sent : Bytes) (r r' : Relay)
      (h : relayStep m hasCb r (.read (some c)) = some r') : Feeds m hasCb ⟨c :: cs, sent, r⟩ ⟨cs, sent, r'⟩
  | write (cs : List Bytes) (sent buf : Bytes) (n : ℕ) (r r' : Relay) (hpos : 0 < n)
      (h : relayStep m hasCb r (.write buf (some n)) = some r') :
      Feeds m hasCb ⟨cs, sent, r⟩ ⟨cs, sent ++ buf.take n, r'⟩
  | report (e : RelayEvent) (he : e = .peerSuccess ∨ e = .cbSuccess ∨ e = .cbFailure) (cs : List Bytes) (sent : Bytes)
      (r r' : Relay) (h : relayStep m hasCb r e = some r') : Feeds m hasCb ⟨cs, sent, r⟩ ⟨cs, sent, r'⟩

/-- `RelayResponse` returned a value, the client has exactly `text`, and every read was used -/
def Relayed (text : Bytes) (s : Fed) : Prop :=
  s.chunks = [] ∧ s.sent = text ∧ ∃ keepalive, s.relay.pc = .returned (some keepalive)

/-- the reads an upstream can be cut into -/
def Cut (chunks : List Bytes) (s : Bytes) : Prop :=
  chunks.flatten = s ∧ ∀ c ∈ chunks, c ≠ [] ∧ c.length ≤ kReadBuffer

def feedStart (chunks : List Bytes) (cbReported : Bool) : Fed := ⟨chunks, [], ⟨cbReported, .head []⟩⟩

/-! ## Progress on a well-formed response -/

variable {m : Method} {h : ResponseHead} {reads body : Bytes} {s : Fed}

section Response

variable {h : ResponseHead} {m : Method}

theorem progress_head (h : ResponseHead) (m : Method) (rest : Bytes) :
    progress m (h.bytes ++ rest) =
      some ((forward (headState h m) rest).1, (rewriteHead h).bytes ++ (forward (headState h m) rest).2) := by
  obtain ⟨i, hi, hfind⟩ := find_head h
  rw [progress, hfind rest, map_some, hi, take_left, drop_left, rewriteHeaders_bytes]

theorem head_read {t : Bytes} {x : ResponseState × Bytes} (heq : reads ++ t = h.bytes ++ body)
    (hp : progress m reads = some x) : ∃ rest, reads = h.bytes ++ rest ∧ rest ++ t = body := by
  obtain ⟨i, hfind, -⟩ := map_eq_some_iff.1 hp
  have hlen : i + 4 ≤ reads.length := find_length_le (by decide) hfind
  have htotal := find_append_some (by decide) hfind t
  obtain ⟨j, hj, hfind'⟩ := find_head h
  rw [heq, hfind' body, some.injEq] at htotal
  obtain ⟨rest, hrest⟩ : h.bytes <+: reads := by
    refine prefix_of_prefix_length_le ⟨body, rfl⟩ (heq ▸ prefix_append reads t) ?_
    omega
  refine ⟨rest, hrest.symm, ?_⟩
  rw [← hrest, append_assoc] at heq
  exact append_cancel_left heq

theorem headState_framing_ne (hb : noBody m h.status = false) : (headState h m).framing ≠ .noBody := by
  have hscan := scan_framed h.lines { status := h.status }
  rw [headState_scan hb]
  revert hscan
  rcases (h.lines.filterMap framingLine).getLast? with - | - | n <;> intro hscan hnone
  · cases hscan.1.symm.trans hnone
  · cases hscan.symm.trans hnone
  · cases hscan.1.symm.trans hnone

theorem finished_forward_iff (hb : noBody m h.status = false) (rest : Bytes) :
    finished (forward (headState h m) rest).1 = true ↔
      (headState h m).framing = .contentLength ∧ (headState h m).bodyRemaining ≤ rest.length := by
  rw [finished, decide_eq_true_eq, (forward_framing _ _).1]
  constructor
  · rintro (hn | ⟨hf, hr⟩)
    · exact absurd hn (headState_framing_ne hb)
    · rw [(forward_contentLength hf rest).1] at hr
      exact ⟨hf, by omega⟩
  · rintro ⟨hf, hr⟩
    refine .inr ⟨hf, ?_⟩
    rw [(forward_contentLength hf rest).1]
    omega

end Response

/-! ## The invariant of a feed -/

/-- what was read so far and what is still to come make up the response, and the end of the stream was not read -/
structure FedInv (m : Method) (total : Bytes) (s : Fed) (reads : Bytes) : Prop where
  inv : RelayInv m reads s.sent false s.relay.pc
  cut : reads ++ s.chunks.flatten = total
  chunks : ∀ c ∈ s.chunks, c ≠ [] ∧ c.length ≤ kReadBuffer
  ok : s.relay.pc ≠ .returned none

theorem feeds_inv {hasCb : Bool} {total : Bytes} {t : Fed} (h : ∃ reads, FedInv m total s reads)
    (hstep : Feeds m hasCb s t) :
    ∃ reads, FedInv m total t reads := by
  obtain ⟨reads, hinv, hcut, hchunks, hok⟩ := h
  cases hstep with
  | read c cs sent r r' hr =>
    have hc := hchunks c (by simp)
    have hi := relayStep_inv hinv hr
    have heof : isEof (.read (some c)) = false := by simp [isEof, hc.1]
    rw [heof] at hi
    refine ⟨reads ++ c, ?_, ?_, fun d hd => hchunks d (by simp [hd]), ?_⟩
    · simpa [bytesRead, bytesSent] using hi
    · simpa using hcut
    · exact relayStep_ne_failed hr (by simpa [answered] using hc.1)
  | write cs sent buf n r r' hpos hr =>
    have hi := relayStep_inv hinv hr
    refine ⟨reads, ?_, hcut, hchunks, ?_⟩
    · simpa [bytesRead, bytesSent, isEof] using hi
    · exact relayStep_ne_failed hr (by simpa [answered] using Nat.ne_of_gt hpos)
  | report e he cs sent r r' hr =>
    have hi := relayStep_inv hinv hr
    refine ⟨reads, ?_, hcut, hchunks, ?_⟩
    · rcases he with rfl | rfl | rfl <;> simpa [bytesRead, bytesSent, isEof] using hi
    · exact relayStep_ne_failed hr (by rcases he with rfl | rfl | rfl <;> rfl)

theorem length_of_relayed (hb : noBody m h.status = false) (hinv : FedInv m (h.bytes ++ body) s reads)
    (hg : Relayed ((rewriteHead h).bytes ++ body) s) :
    (headState h m).framing = .contentLength ∧ (headState h m).bodyRemaining = body.length := by
  obtain ⟨hchunks, hsent, keepalive, hpc⟩ := hg
  obtain ⟨hi, hcut, -, -⟩ := hinv
  rw [hchunks, flatten_nil, append_nil] at hcut
  rw [hpc, hcut, hsent] at hi
  obtain ⟨state, hprog, ⟨hfin, -⟩ | ⟨heof, -, -⟩⟩ := hi
  · rw [progress_head, some.injEq, Prod.mk.injEq] at hprog
    obtain ⟨rfl, htext⟩ := hprog
    obtain ⟨hf, hle⟩ := (finished_forward_iff hb body).1 hfin
    have htake := append_cancel_left htext
    rw [(forward_contentLength hf body).2, take_eq_self_iff] at htake
    exact ⟨hf, by omega⟩
  · exact absurd heof (by decide)

/-- calls left before the next read or write -/
def reportsLeft : RelayPc → ℕ
  | .peerSuccess _ _ => 2
  | .cbSuccess _ _ | .cbFailure _ _ => 1
  | _ => 0

/-- bytes still due to the client, reads still to come and reports still to make; a read makes two reports at most -/
def feedMeasure (due : ℕ) (s : Fed) : ℕ := due - s.sent.length + 4 * s.chunks.length + reportsLeft s.relay.pc

theorem reportsLeft_startWrite (state : ResponseState) (buf : Bytes) : reportsLeft (startWrite state buf) = 0 := by
  unfold startWrite afterWrite
  split_ifs <;> rfl

theorem feeds_measure {hasCb : Bool} {due : ℕ} {t : Fed} (ht : t.sent.length ≤ due) (hstep : Feeds m hasCb s t) :
    feedMeasure due t < feedMeasure due s := by
  cases hstep with
  | read c cs sent r r' hr =>
    have : reportsLeft r'.pc ≤ 2 := by cases r'.pc <;> simp [reportsLeft]
    simp only [feedMeasure, length_cons]
    omega
  | write cs sent buf n r r' hpos hr =>
    have hmove := relayStep_iff.1 hr
    cases hmove with
    | writeZero => exact absurd hpos (by decide)
    | writeSome c state buf n hpos' hle =>
      simp only [length_append, length_take] at ht
      simp only [feedMeasure, reportsLeft_startWrite, length_append, length_take]
      omega
  | report e he cs sent r r' hr =>
    have hmove := relayStep_iff.1 hr
    have hless : reportsLeft r'.pc < reportsLeft r.pc := by
      cases hmove with
      | cbFailure c state buf =>
        rw [reportsLeft_startWrite]
        exact one_pos
      | cbSuccess c state buf =>
        rw [reportsLeft_startWrite]
        exact one_pos
      | peerSuccess c state buf =>
        split_ifs
        · exact one_lt_two
        · rw [reportsLeft_startWrite]
          exact two_pos
      | _ => simp at he
    simp only [feedMeasure]
    omega

section Enough

variable {h : ResponseHead} {m : Method} {body : Bytes} (hb : noBody m h.status = false)
  (hf : (headState h m).framing = .contentLength) (hn : (headState h m).bodyRemaining = body.length)

include hb hf hn

theorem progress_isPrefix {t : Bytes} {state : ResponseState} {text : Bytes} (hcut : reads ++ t = h.bytes ++ body)
    (hp : progress m reads = some (state, text)) :
    text <+: (rewriteHead h).bytes ++ body ∧
      (finished state = true → t = [] ∧ text = (rewriteHead h).bytes ++ body) := by
  obtain ⟨rest, rfl, hrest⟩ := head_read hcut hp
  rw [progress_head, some.injEq] at hp
  obtain ⟨rfl, rfl⟩ := hp
  have hlen : rest.length + t.length = body.length := by rw [← hrest, length_append]
  have htake : (forward (headState h m) rest).2 = rest := by
    rw [(forward_contentLength hf rest).2, take_eq_self_iff]
    omega
  rw [htake]
  refine ⟨(prefix_append_right_inj _).2 ⟨t, hrest⟩, fun hfin => ?_⟩
  have hle := ((finished_forward_iff hb rest).1 hfin).2
  have ht : t = [] := length_eq_zero_iff.1 (by omega)
  rw [ht, append_nil] at hrest
  exact ⟨ht, by rw [hrest]⟩

theorem fed_sent_le (hinv : FedInv m (h.bytes ++ body) s reads) :
    s.sent.length ≤ ((rewriteHead h).bytes ++ body).length := by
  rcases relayInv_sent hinv.inv with hnil | ⟨state, text, hp, hsent⟩
  · rw [hnil]
    simp
  · exact (hsent.trans (progress_isPrefix hb hf hn hinv.cut hp).1).length_le

theorem fed_moves (hasCb : Bool) (hinv : FedInv m (h.bytes ++ body) s reads)
    (hg : ¬ Relayed ((rewriteHead h).bytes ++ body) s) : ∃ t, Feeds m hasCb s t := by
  obtain ⟨chunks, sent, ⟨c, pc⟩⟩ := s
  obtain ⟨hi, hcut, hchunks, hok⟩ := hinv
  have hread : ∀ d ds, chunks = d :: ds → (∃ r', RelayMove m hasCb ⟨c, pc⟩ (.read (some d)) r') →
      ∃ t, Feeds m hasCb ⟨chunks, sent, ⟨c, pc⟩⟩ t := by
    rintro d ds rfl ⟨r', hr'⟩
    exact ⟨_, .read d ds sent _ r' (relayStep_iff.2 hr')⟩
  have hreport : ∀ e r', (e = .peerSuccess ∨ e = .cbSuccess ∨ e = .cbFailure) → RelayMove m hasCb ⟨c, pc⟩ e r' →
      ∃ t, Feeds m hasCb ⟨chunks, sent, ⟨c, pc⟩⟩ t :=
    fun e r' he hr' => ⟨_, .report e he chunks sent _ r' (relayStep_iff.2 hr')⟩
  cases pc with
  | head pending =>
    obtain ⟨-, -, hnone⟩ := hi
    cases chunks with
    | nil =>
      rw [flatten_nil, append_nil] at hcut
      rw [hcut, progress_head] at hnone
      exact absurd hnone (by simp)
    | cons d ds =>
      obtain ⟨hne, hlen⟩ := hchunks d (by simp)
      refine hread d ds rfl ?_
      cases hfind : find (CRLF ++ CRLF) (pending ++ d) with
      | none => exact ⟨_, .headMore c pending d hne hlen hfind⟩
      | some i => exact ⟨_, .headDone c pending d hne hlen i hfind⟩
  | cbFailure state buf => exact hreport _ _ (.inr (.inr rfl)) (.cbFailure c state buf)
  | peerSuccess state buf => exact hreport _ _ (.inl rfl) (.peerSuccess c state buf)
  | cbSuccess state buf => exact hreport _ _ (.inr (.inl rfl)) (.cbSuccess c state buf)
  | write state buf =>
    have hpos : 1 ≤ buf.length := length_pos_of_ne_nil hi.2
    exact ⟨_, .write chunks sent buf 1 _ _ one_pos (relayStep_iff.2 (.writeSome c state buf 1 one_pos hpos))⟩
  | body state =>
    obtain ⟨hp, hfin⟩ := hi
    cases chunks with
    | nil =>
      rw [flatten_nil, append_nil] at hcut
      rw [hcut, progress_head, some.injEq, Prod.mk.injEq] at hp
      have := (finished_forward_iff hb body).2 ⟨hf, hn.le⟩
      rw [hp.1, hfin] at this
      exact absurd this (by decide)
    | cons d ds =>
      obtain ⟨hne, hlen⟩ := hchunks d (by simp)
      exact hread d ds rfl ⟨_, .bodyChunk c state d hne hlen⟩
  | returned answer =>
    cases answer with
    | none => exact absurd rfl hok
    | some keepalive =>
      obtain ⟨state, hp, ⟨hfin, -⟩ | ⟨heof, -, -⟩⟩ := hi
      · obtain ⟨hnil, htext⟩ := (progress_isPrefix hb hf hn hcut hp).2 hfin
        have hchunks' : chunks = [] := by
          cases chunks with
          | nil => rfl
          | cons d ds =>
            rw [flatten_cons, append_eq_nil_iff] at hnil
            exact absurd hnil.1 (hchunks d (by simp)).1
        exact absurd ⟨hchunks', htext, keepalive, rfl⟩ hg
      · exact absurd heof (by decide)

end Enough

/-- **When a fed response is relayed.** For every cut, `RelayResponse` relays head and body and returns without asking
for more exactly when the scan of the head has the length of the body. -/
theorem fed_iff (hb : noBody m h.status = false) {chunks : List Bytes} (hcut : Cut chunks (h.bytes ++ body))
    (hasCb cbReported : Bool) :
    Inevitable (Feeds m hasCb) (Relayed ((rewriteHead h).bytes ++ body)) (feedStart chunks cbReported) ↔
      (headState h m).framing = .contentLength ∧ (headState h m).bodyRemaining = body.length := by
  have hstart : FedInv m (h.bytes ++ body) (feedStart chunks cbReported) [] := by
    refine ⟨⟨rfl, rfl, rfl⟩, hcut.1, hcut.2, ?_⟩
    simp [feedStart]
  constructor
  · intro hinev
    obtain ⟨t, ⟨reads, hinv⟩, hg⟩ := hinev.exists_goal (fun s => ∃ reads, FedInv m (h.bytes ++ body) s reads)
      (fun s t hs _ hst => feeds_inv hs hst) ⟨[], hstart⟩
    exact length_of_relayed hb hinv hg
  · rintro ⟨hf, hn⟩
    refine Inevitable.of_measure (fun s => ∃ reads, FedInv m (h.bytes ++ body) s reads)
      (feedMeasure ((rewriteHead h).bytes ++ body).length) ?_ ?_ _ ⟨[], hstart⟩
    · rintro s ⟨reads, hinv⟩ hg
      exact fed_moves hb hf hn hasCb hinv hg
    · intro s t hs _ hst
      obtain ⟨reads, hinv⟩ := feeds_inv hs hst
      exact ⟨⟨reads, hinv⟩, feeds_measure (fed_sent_le hb hf hn hinv) hst⟩

/-! ## Responses framed by Content-Length -/

/-- a final response with a body framed by one plain Content-Length -/
structure LengthResponse (m : Method) where
  head : ResponseHead
  body : Bytes
  value : Bytes
  final : ¬ head.Interim
  hasBody : ¬ head.Bodyless m
  length : head.values (str "content-length") = [value] ∧ PlainDecimal value body.length
  coding : head.values (str "transfer-encoding") = []

theorem noBody_eq_false (hfinal : ¬ h.Interim) (hbody : ¬ h.Bodyless m) :
    noBody m h.status = false := by
  rw [Bool.eq_false_iff]
  intro hn
  exact (noBody_iff.1 hn).elim hbody hfinal

theorem LengthResponse.headState (r : LengthResponse m) :
    if r.body.length < 2 ^ 64 then
      (headState r.head m).framing = .contentLength ∧ (headState r.head m).bodyRemaining = r.body.length
    else (Gateway.headState r.head m).framing = .closeDelimited := by
  obtain ⟨hv, hplain⟩ := r.length
  refine headState_length (noBody_eq_false r.final r.hasBody) r.coding (by simp [hv]) ?_
  rw [hv]
  intro v hmem
  rw [mem_singleton.1 hmem]
  exact hplain

/-- **Faithful relay of Content-Length responses.** Whatever the cuts into reads and the partial writes, the client gets
the head with its Server lines replaced and the body, and `RelayResponse` returns on the read that delivered the last
byte. -/
theorem relay_contentLength {m : Method} (r : LengthResponse m) (hlen : r.body.length < 2 ^ 64) {chunks : List Bytes}
    (hcut : Cut chunks (r.head.bytes ++ r.body)) (hasCb cbReported : Bool) :
    Inevitable (Feeds m hasCb) (Relayed ((rewriteHead r.head).bytes ++ r.body)) (feedStart chunks cbReported) := by
  have hstate := r.headState
  rw [if_pos hlen] at hstate
  exact (fed_iff (noBody_eq_false r.final r.hasBody) hcut hasCb cbReported).2 hstate

def smallResponse : LengthResponse .get where
  head := okHead [str "Server: upstream", str "Content-Length: 3"] (by decide)
  body := str "abc"
  value := str "3"
  final := by decide
  hasBody := by decide
  length := by decide
  coding := by decide

theorem relay_contentLength_small : Inevitable (Feeds .get true)
    (Relayed (str "HTTP/1.1 200 OK\r\nServer: runtime-gateway\r\nContent-Length: 3\r\n\r\nabc"))
    (feedStart [str "HTTP/1.1 200 OK\r\nServer: upstream\r", str "\nContent-Length: 3\r\n\r", str "\na", str "bc"]
      false) := by
  have htext : (rewriteHead smallResponse.head).bytes ++ smallResponse.body =
      str "HTTP/1.1 200 OK\r\nServer: runtime-gateway\r\nContent-Length: 3\r\n\r\nabc" := by decide +kernel
  rw [← htext]
  exact relay_contentLength smallResponse (by decide) ⟨by decide +kernel, by decide⟩ true false

theorem cut_bytes (s : Bytes) : Cut (s.map fun b => [b]) s := by
  constructor
  · induction s with
    | nil => rfl
    | cons b s ih => rw [map_cons, flatten_cons, ih, singleton_append]
  · intro c hc
    obtain ⟨b, -, rfl⟩ := mem_map.1 hc
    exact ⟨by simp, by simp [kReadBuffer]⟩

/-- a longer response is taken for one that ends with the connection: after its last byte the relay waits for more -/
theorem not_relayed_of_overflow (r : LengthResponse m) (hlen : 2 ^ 64 ≤ r.body.length) {chunks : List Bytes}
    (hcut : Cut chunks (r.head.bytes ++ r.body)) (hasCb cbReported : Bool) :
    ¬ Inevitable (Feeds m hasCb) (Relayed ((rewriteHead r.head).bytes ++ r.body)) (feedStart chunks cbReported) := by
  intro hinev
  have hframing := ((fed_iff (noBody_eq_false r.final r.hasBody) hcut hasCb cbReported).1 hinev).1
  have hstate := r.headState
  rw [if_neg (not_lt.2 hlen), hframing] at hstate
  exact absurd hstate (by decide)

def hugeResponse : LengthResponse .get where
  head := okHead [str "Content-Length: 18446744073709551616"] (by decide)
  body := List.replicate (2 ^ 64) 0
  value := str "18446744073709551616"
  final := by decide
  hasBody := by decide
  length := by
    rw [length_replicate]
    decide
  coding := by decide

theorem relay_contentLength_huge :
    ¬ Inevitable (Feeds .get true) (Relayed ((rewriteHead hugeResponse.head).bytes ++ hugeResponse.body))
      (feedStart ((hugeResponse.head.bytes ++ hugeResponse.body).map fun b => [b]) false) := by
  have hlen : hugeResponse.body.length = 2 ^ 64 := length_replicate
  exact not_relayed_of_overflow hugeResponse hlen.ge (cut_bytes _) true false

/-! ## Chunked responses -/

/-- a final response with a well-formed chunked body -/
structure ChunkedResponse (m : Method) where
  head : ResponseHead
  body : Bytes
  final : ¬ head.Interim
  hasBody : ¬ head.Bodyless m
  coding : head.Chunked
  chunked : ChunkedBody body

/-- behind the last line that names the chunked coding stands a Content-Length line, and the last of these that has a
number says `n` -/
def LengthBehindCoding (lines : List Bytes) (n : ℕ) : Prop :=
  ∃ pre coding mid l post, lines = pre ++ coding :: (mid ++ l :: post) ∧ chunkedLine coding = true ∧
    (∀ k ∈ mid ++ l :: post, chunkedLine k = false) ∧ lengthLine l = some n ∧ ∀ k ∈ post, lengthLine k = none

theorem lengthBehindCoding_iff (hc : h.Chunked) (n : ℕ) :
    LengthBehindCoding h.lines n ↔ (h.lines.filterMap framingLine).getLast? = some (some n) := by
  simp only [filterMap_getLast_iff, framingLine_eq_length, framingLine_eq_none]
  constructor
  · rintro ⟨pre, coding, mid, l, post, hlines, -, hmid, hl, hpost⟩
    refine ⟨pre ++ coding :: mid, l, post, by rw [hlines]; simp, hl, fun k hk => ⟨hpost k hk, hmid k (by simp [hk])⟩⟩
  · rintro ⟨pre, l, post, hlines, hl, hpost⟩
    obtain ⟨pre', coding, post', hlines', hcoding, hpost'⟩ := exists_last_coding hc
    -- the chunked line is not the length line and not behind it, so it stands in front
    have hne : l ≠ coding := by
      rintro rfl
      cases hl.symm.trans (lengthLine_of_chunked hcoding)
    have hbehind : coding ∉ post := fun hmem => absurd (hcoding.symm.trans (hpost coding hmem).2) (by decide)
    rcases append_eq_append_iff.1 (hlines.symm.trans hlines') with ⟨as, -, has⟩ | ⟨bs, -, hbs⟩
    · cases as with
      | nil => exact absurd (List.cons.inj has).1 hne
      | cons a as => exact absurd ((List.cons.inj has).2 ▸ by simp) hbehind
    · cases bs with
      | nil => exact absurd (List.cons.inj hbs).1.symm hne
      | cons b mid =>
        have hpost'' : post' = mid ++ l :: post := (List.cons.inj hbs).2
        rw [hpost''] at hpost'
        exact ⟨pre', coding, mid, l, post, by rw [hlines', hpost''], hcoding, hpost', hl, fun k hk => (hpost k hk).1⟩

/-- **Chunked responses end with their last chunk only by accident.** A chunked response fed to the relay is relayed
whole and ends the relay exactly when a Content-Length behind its last chunked coding is the length of the encoded body;
otherwise the relay waits for a further read, or stops inside the body. -/
theorem relay_chunked_iff {m : Method} (r : ChunkedResponse m) {chunks : List Bytes}
    (hcut : Cut chunks (r.head.bytes ++ r.body)) (hasCb cbReported : Bool) :
    Inevitable (Feeds m hasCb) (Relayed ((rewriteHead r.head).bytes ++ r.body)) (feedStart chunks cbReported) ↔
      LengthBehindCoding r.head.lines r.body.length := by
  have hb := noBody_eq_false r.final r.hasBody
  rw [fed_iff hb hcut hasCb cbReported, headState_scan hb, scan_length_iff _ _ (by simp),
    lengthBehindCoding_iff r.coding]

/-- an empty chunked response: the last chunk only -/
def emptyChunked (lines : List Bytes) (h : ∀ l ∈ lines, l ≠ [] ∧ Clean l) (hc : (okHead lines h).Chunked) :
    ChunkedResponse .get where
  head := okHead lines h
  body := str "0\r\n\r\n"
  final := (by decide : ¬ (100 ≤ decimal (str "200") ∧ decimal (str "200") < 200))
  hasBody := (by decide : ¬ (Method.get = .head ∨ decimal (str "200") = 204 ∨ decimal (str "200") = 304))
  coding := hc
  chunked := .last (str "0") [] [] (by decide) (by decide) (by decide)

def chunkedWithLength : ChunkedResponse .get :=
  emptyChunked [str "Transfer-Encoding: chunked", str "Content-Length: 5"] (by decide)
    ⟨str "chunked", by decide, by decide⟩

theorem relay_chunked_with_length :
    Inevitable (Feeds .get true)
      (Relayed ((rewriteHead chunkedWithLength.head).bytes ++ chunkedWithLength.body))
      (feedStart [str "HTTP/1.1 200 OK\r\nTransfer-Encoding: chunked\r\nContent-Length: 5\r\n\r\n0\r", str "\n\r\n"]
        false) :=
  (relay_chunked_iff chunkedWithLength ⟨by decide +kernel, by decide⟩ true false).2
    ⟨[], str "Transfer-Encoding: chunked", [], str "Content-Length: 5", [], rfl, by decide +kernel, by decide +kernel,
      by decide +kernel, by simp⟩

def plainChunked : ChunkedResponse .get :=
  emptyChunked [str "Transfer-Encoding: chunked"] (by decide) ⟨str "chunked", by decide, by decide⟩

/-- the ordinary chunked response never ends the relay: with all its bytes read and relayed it waits for another read -/
theorem relay_chunked_waits :
    ¬ Inevitable (Feeds .get true) (Relayed ((rewriteHead plainChunked.head).bytes ++ plainChunked.body))
      (feedStart [str "HTTP/1.1 200 OK\r\nTransfer-Encoding: chunked\r\n\r\n0\r\n\r\n"] false) := by
  intro hinev
  have hcut : Cut [str "HTTP/1.1 200 OK\r\nTransfer-Encoding: chunked\r\n\r\n0\r\n\r\n"]
      (plainChunked.head.bytes ++ plainChunked.body) := ⟨by decide +kernel, by decide⟩
  have hbody := noBody_eq_false plainChunked.final plainChunked.hasBody
  have hframing := ((fed_iff hbody hcut true false).1 hinev).1
  cases hframing

end Coropact.Gateway
