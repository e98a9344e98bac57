/-
Requests that arrive in chunks (`src/http/http_parser.cc`, the loop of `ServeWithPool` in
`include/coropact/gateway/gateway_session_service.h`).

`drainRequests` and `serveChunks` are the loop of the session without what it does with a request: feed a chunk, hand
out the requests that are complete, with `Reset` and `ParseAvailable` behind each, and stop at the first status other
than `Continue` and `GotAll`. `ParseAvailable` starts over on every call, so the parser is a `Scanner` and the loop its
`feed`.

The caps are checked on what has arrived (`pending_.size()`, `pending_.size() - headers_begin`) and again on complete
lines, with different counts: a request line of 8192 bytes is within its cap but 8193 bytes without CRLF, its CR among
them, are not; and the bytes of a header section that is not complete yet count its CRLFs, those of its lines do not.
-/
import Coropact.Core.Scanner
import Coropact.Http.Serialize

namespace Coropact.Http

open Coropact.Text Coropact.Stream List Option

namespace HttpParser

/-! ## The loop of the session -/

theorem bytes_ne_nil (t : RequestText) : t.bytes ≠ [] := by simp [RequestText.bytes, CRLF]

variable {p q : HttpParser} {status : ParseStatus} {u s line : Bytes} {lim : Limits} {n : ℕ}

theorem parseAvailable_shorter (h : parseAvailable lim p = (.gotAll, q)) :
    2 * q.reset.pending.length + q.reset.gotAll.toNat < 2 * p.pending.length + p.gotAll.toNat := by
  change 2 * q.pending.length + 0 < _
  cases hp : p.gotAll with
  | true =>
    simp only [parseAvailable, hp, if_true, Prod.mk.injEq, true_and] at h
    rw [h]
    exact Nat.lt_succ_self _
  | false =>
    obtain ⟨t, hpend, -⟩ := parseAvailable_gotAll hp h
    have hlen := length_pos_of_ne_nil (bytes_ne_nil t)
    rw [hpend, length_append]
    omega

/-- hand out the complete requests, with `Reset` and `ParseAvailable` behind each -/
def drainRequests (lim : Limits) (p : HttpParser) : List HttpRequest × ParseStatus × HttpParser :=
  match _h : parseAvailable lim p with
  | (.gotAll, q) => (q.request :: (drainRequests lim q.reset).1, (drainRequests lim q.reset).2)
  | r => ([], r)
termination_by 2 * p.pending.length + p.gotAll.toNat
decreasing_by all_goals exact parseAvailable_shorter ‹_›

/-- feed the chunks one after the other; the session closes at the first status other than `Continue` -/
def serveChunks (lim : Limits) : HttpParser → List Bytes → List HttpRequest × ParseStatus × HttpParser
  | p, [] => ([], .cont, p)
  | p, chunk :: chunks =>
    match drainRequests lim { p with pending := p.pending ++ chunk } with
    | (reqs, .cont, q) => (reqs ++ (serveChunks lim q chunks).1, (serveChunks lim q chunks).2)
    | r => r

/-- the first error, or what is pending -/
def outcome : ParseStatus × HttpParser → Except ParseStatus Bytes
  | (.cont, p) => .ok p.pending
  | (status, _) => .error status

/-- what a session gets out of the chunks -/
def received (lim : Limits) (chunks : List Bytes) : List HttpRequest × Except ParseStatus Bytes :=
  ((serveChunks lim {} chunks).1, outcome (serveChunks lim {} chunks).2)

theorem drainRequests_gotAll (h : parseAvailable lim p = (.gotAll, q)) :
    drainRequests lim p = (q.request :: (drainRequests lim q.reset).1, (drainRequests lim q.reset).2) := by
  rw [drainRequests]
  split <;> simp_all

theorem drainRequests_of_ne (h : (parseAvailable lim p).1 ≠ .gotAll) :
    drainRequests lim p = ([], parseAvailable lim p) := by
  rw [drainRequests]
  split <;> simp_all

/-! ## The parser as a scanner -/

theorem parseAvailable_fresh (hp : p.gotAll = false) :
    parseAvailable lim p = parseAvailable lim { pending := p.pending } := by
  unfold parseAvailable
  rw [hp]
  rfl

theorem parseAvailable_cont (h : parseAvailable lim p = (.cont, q)) : q.pending = p.pending ∧ q.gotAll = false := by
  revert h
  fun_cases parseAvailable lim p <;> intro h <;> try cases congrArg Prod.fst h
  case case3.refl =>
    obtain rfl := (Prod.mk.inj h).2
    exact ⟨rfl, rfl⟩
  case case6.refl hp₁ _ _ _ =>
    obtain rfl := (Prod.mk.inj h).2
    obtain ⟨m, uri, v, -, -, -, -, rfl⟩ := parseRequestLine_cont hp₁
    exact ⟨rfl, rfl⟩
  case case7.refl hp₁ _ _ _ _ hp₂ _ _ =>
    obtain rfl := (Prod.mk.inj h).2
    obtain ⟨m, uri, v, -, -, -, -, rfl⟩ := parseRequestLine_cont hp₁
    obtain ⟨fields, n, -, -, rfl⟩ := (parseHeaders_iff rfl).1 hp₂
    exact ⟨rfl, rfl⟩
  -- a line that is not taken ends with a status of its own
  case case9 hne => exact absurd h (hne q)
  case case10 hne => exact absurd h (hne q)

/-- what `ParseAvailable` says of the bytes it holds -/
def scan (lim : Limits) (s : Bytes) : Scan HttpRequest ParseStatus UInt8 :=
  match parseAvailable lim { pending := s } with
  | (.gotAll, q) => .item q.request q.pending
  | (.cont, _) => .more
  | (status, _) => .fail status

theorem scan_item {rest : Bytes} {req : HttpRequest} (h : scan lim s = .item req rest) :
    ∃ t : RequestText, t.Within lim ∧ s = t.bytes ++ rest ∧ req = t.request := by
  unfold scan at h
  split at h <;> simp only [Scan.item.injEq, reduceCtorEq] at h
  rename_i q hq
  obtain ⟨rfl, rfl⟩ := h
  obtain ⟨t, hpend, hreq, hlim⟩ := parseAvailable_gotAll_within rfl hq
  exact ⟨t, hlim, hpend, hreq⟩

theorem scan_text {t : RequestText} (h : t.Within lim) (rest : Bytes) :
    scan lim (t.bytes ++ rest) = .item t.request rest := by
  obtain ⟨q, hq, hreq, hpend⟩ := parseAvailable_of_within (p := { pending := t.bytes ++ rest }) rfl t h rest rfl
  rw [scan, hq, ← hreq, ← hpend]

def scanner (lim : Limits) : Scanner HttpRequest ParseStatus UInt8 where
  scan := scan lim
  consumes := by
    intro s req rest h
    obtain ⟨t, hlim, rfl, rfl⟩ := scan_item h
    exact ⟨t.bytes, bytes_ne_nil t, rfl, scan_text hlim⟩

theorem drainRequests_eq_drain (lim : Limits) (hp : p.gotAll = false) :
    ((drainRequests lim p).1, outcome (drainRequests lim p).2) = (scanner lim).drain p.pending ∧
      ((drainRequests lim p).2.1 = .cont → (drainRequests lim p).2.2.gotAll = false) := by
  induction hn : p.pending.length using Nat.strong_induction_on generalizing p with
  | _ n ih =>
    have hfresh : parseAvailable lim { pending := p.pending } = parseAvailable lim p := (parseAvailable_fresh hp).symm
    rcases hr : parseAvailable lim p with ⟨status, q⟩
    by_cases hgot : status = .gotAll
    · subst hgot
      have hscan : (scanner lim).scan p.pending = .item q.request q.pending := by
        change scan lim p.pending = _
        rw [scan, hfresh, hr]
      obtain ⟨ih1, ih2⟩ := ih _ (hn ▸ (scanner lim).shorter hscan) (p := q.reset) rfl rfl
      rw [drainRequests_gotAll hr, Scanner.drain_item hscan]
      obtain ⟨h1, h2⟩ := Prod.mk.inj ih1
      exact ⟨Prod.ext (congrArg (q.request :: ·) h1) h2, ih2⟩
    · have hd : drainRequests lim p = ([], status, q) := by
        rw [drainRequests_of_ne (by rw [hr]; exact hgot), hr]
      rw [hd]
      by_cases hcont : status = .cont
      · subst hcont
        obtain ⟨hpend, hq⟩ := parseAvailable_cont hr
        have hscan : (scanner lim).scan p.pending = .more := by
          change scan lim p.pending = _
          rw [scan, hfresh, hr]
        rw [Scanner.drain_more hscan, ← hpend]
        exact ⟨rfl, fun _ => hq⟩
      · have hscan : (scanner lim).scan p.pending = .fail status := by
          change scan lim p.pending = _
          rw [scan, hfresh, hr]
          cases status <;> first | exact absurd rfl hgot | exact absurd rfl hcont | rfl
        rw [Scanner.drain_fail hscan]
        refine ⟨?_, fun h => absurd h hcont⟩
        cases status <;> first | exact absurd rfl hcont | rfl

theorem serveChunks_eq_feed (chunks : List Bytes) (hp : p.gotAll = false) :
    ((serveChunks lim p chunks).1, outcome (serveChunks lim p chunks).2) = (scanner lim).feed p.pending chunks := by
  induction chunks generalizing p with
  | nil => rfl
  | cons chunk chunks ih =>
    obtain ⟨hd, hgot⟩ := drainRequests_eq_drain lim (p := { p with pending := p.pending ++ chunk }) hp
    rw [serveChunks, Scanner.feed, ← hd]
    rcases hr : drainRequests lim { p with pending := p.pending ++ chunk } with ⟨reqs, status, q⟩
    rw [hr] at hgot
    cases status with
    | cont =>
      obtain ⟨h1, h2⟩ := Prod.mk.inj (ih (hgot rfl))
      simp only [outcome, ← h1, ← h2]
    | _ => rfl

theorem received_eq_feed (lim : Limits) (chunks : List Bytes) : received lim chunks = (scanner lim).feed [] chunks :=
  serveChunks_eq_feed chunks rfl

/-! ## Refusals -/

def lineStatus (line : Bytes) : ParseStatus := (parseRequestLine {} line).1

def headersStatus (lim : Limits) (lines : List Bytes) : ParseStatus := (parseHeaders lim {} lines).1

theorem parseRequestLine_fst (p : HttpParser) (line : Bytes) : (parseRequestLine p line).1 = lineStatus line := by
  unfold lineStatus parseRequestLine
  cases cutAt SP line with
  | none => rfl
  | some r =>
    obtain ⟨methodSv, rest⟩ := r
    cases hrest : cutAt SP rest with
    | none => simp only [hrest]
    | some r' =>
      obtain ⟨uri, versionSv⟩ := r'
      simp only [hrest]
      cases parseMethod methodSv with
      | none => rfl
      | some m =>
        cases parseVersion versionSv with
        | none => rfl
        | some v => cases cutAt question uri <;> rfl

theorem lineStatus_mem (line : Bytes) :
    lineStatus line ∈ [ParseStatus.cont, .badRequest, .badMethod, .badVersion] := by
  unfold lineStatus parseRequestLine
  repeat' split
  all_goals simp

def RequestLine (line : Bytes) : Prop :=
  ∃ m uri v, m ≠ .invalid ∧ v ≠ .unknown ∧ SP ∉ uri ∧ line = methodToString m ++ SP :: (uri ++ SP :: versionToString v)

theorem lineStatus_cont_iff : lineStatus line = .cont ↔ RequestLine line := by
  constructor
  · intro h
    obtain ⟨m, uri, v, hm, hv, hu, hl, -⟩ :=
      parseRequestLine_cont (Prod.ext h rfl : parseRequestLine {} line = (.cont, _))
    exact ⟨m, uri, v, hm, hv, hu, hl⟩
  · rintro ⟨m, uri, v, hm, hv, hu, rfl⟩
    rw [lineStatus, parseRequestLine_of {} hm hv hu]

structure SameCounts (p p' : HttpParser) : Prop where
  body : p.bodyBytesExpected = p'.bodyBytesExpected
  count : p.headerCount = p'.headerCount
  bytes : p.headerBytes = p'.headerBytes
  seen : p.contentLengthSeen = p'.contentLengthSeen

def SameVerdict (r r' : ParseStatus × HttpParser) : Prop := r.1 = r'.1 ∧ SameCounts r.2 r'.2

theorem SameVerdict.ite {c : Prop} [Decidable c] {r₁ r₁' r₂ r₂' : ParseStatus × HttpParser} (h₁ : SameVerdict r₁ r₁')
    (h₂ : SameVerdict r₂ r₂') : SameVerdict (if c then r₁ else r₂) (if c then r₁' else r₂') := by
  split_ifs
  · exact h₁
  · exact h₂

theorem parseHeaderLine_sameCounts (lim : Limits) {p' : HttpParser} (h : SameCounts p p') (line : Bytes) :
    SameVerdict (parseHeaderLine lim p line) (parseHeaderLine lim p' line) := by
  obtain ⟨hbody, hcount, hbytes, hseen⟩ := h
  simp only [parseHeaderLine, hcount, hbytes, hseen]
  refine .ite ⟨rfl, hbody, rfl, rfl, rfl⟩ (.ite ⟨rfl, hbody, rfl, rfl, rfl⟩ ?_)
  cases cutAt colon line with
  | none => exact ⟨rfl, hbody, rfl, rfl, rfl⟩
  | some fv =>
    refine .ite ⟨rfl, hbody, rfl, rfl, rfl⟩ (.ite ⟨rfl, hbody, rfl, rfl, rfl⟩
      (.ite (.ite ⟨rfl, hbody, rfl, rfl, rfl⟩ ?_) ⟨rfl, hbody, rfl, rfl, rfl⟩))
    split
    · exact .ite ⟨rfl, hbody, rfl, rfl, rfl⟩ ⟨rfl, rfl, rfl, rfl, rfl⟩
    · exact ⟨rfl, hbody, rfl, rfl, rfl⟩

theorem parseHeaders_sameCounts {p' : HttpParser} (h : SameCounts p p') (lines : List Bytes) :
    (parseHeaders lim p lines).1 = (parseHeaders lim p' lines).1 := by
  induction lines generalizing p p' with
  | nil => rfl
  | cons line lines ih =>
    obtain ⟨hstatus, hcounts⟩ := parseHeaderLine_sameCounts lim h line
    simp only [parseHeaders]
    split_ifs
    · rfl
    · rcases h1 : parseHeaderLine lim p line with ⟨status, q⟩
      rcases h2 : parseHeaderLine lim p' line with ⟨status', q'⟩
      rw [h1, h2] at hstatus hcounts
      subst hstatus
      cases status with
      | cont => exact ih hcounts
      | _ => rfl

/-- how `ParseAvailable` refuses the bytes it holds -/
inductive Refuses (lim : Limits) (s : Bytes) : ParseStatus → Prop
  | unendedLine (hnone : find CRLF s = none) (hlen : exceeds s.length lim.maxRequestLine = true) :
      Refuses lim s .uriTooLong
  | longLine {i : ℕ} (hi : find CRLF s = some i) (hlen : exceeds i lim.maxRequestLine = true) :
      Refuses lim s .uriTooLong
  | badLine {i : ℕ} (hi : find CRLF s = some i) (hlen : exceeds i lim.maxRequestLine = false)
      (hne : lineStatus (s.take i) ≠ .cont) : Refuses lim s (lineStatus (s.take i))
  | unendedSection {i : ℕ} (hi : find CRLF s = some i) (hlen : exceeds i lim.maxRequestLine = false)
      (hline : lineStatus (s.take i) = .cont) (hnone : find (CRLF ++ CRLF) (s.drop (i + 2)) = none)
      (hsec : exceeds (s.drop (i + 2)).length lim.maxHeaderBytes = true) : Refuses lim s .headerTooLarge
  | badHeaders {i j : ℕ} (hi : find CRLF s = some i) (hlen : exceeds i lim.maxRequestLine = false)
      (hline : lineStatus (s.take i) = .cont) (hj : find (CRLF ++ CRLF) (s.drop (i + 2)) = some j)
      (hne : headersStatus lim (headerLines ((s.drop (i + 2)).take j)) ≠ .cont) :
      Refuses lim s (headersStatus lim (headerLines ((s.drop (i + 2)).take j)))

section Stages

variable {lim : Limits} {s : Bytes} {i : ℕ}

theorem parseAvailable_noLine (hi : find CRLF s = none) : (parseAvailable lim { pending := s }).1 =
    if exceeds s.length lim.maxRequestLine then .uriTooLong else .cont := by
  have hi' : find [CR, LF] (reset { pending := s }).pending = none := hi
  simp only [parseAvailable, Bool.false_eq_true, if_false, hi']
  exact apply_ite Prod.fst _ _ _

theorem parseAvailable_longLine (hi : find CRLF s = some i) (hlen : exceeds i lim.maxRequestLine = true) :
    (parseAvailable lim { pending := s }).1 = .uriTooLong := by
  have hi' : find [CR, LF] (reset { pending := s }).pending = some i := hi
  simp only [parseAvailable, Bool.false_eq_true, if_false, hi', hlen, if_true]

theorem parseAvailable_badLine (hi : find CRLF s = some i) (hlen : exceeds i lim.maxRequestLine = false)
    (hne : lineStatus (s.take i) ≠ .cont) : (parseAvailable lim { pending := s }).1 = lineStatus (s.take i) := by
  have hi' : find [CR, LF] (reset { pending := s }).pending = some i := hi
  have hfst := parseRequestLine_fst (reset { pending := s }) (s.take i)
  rcases hr : parseRequestLine (reset { pending := s }) (s.take i) with ⟨status, q⟩
  rw [hr] at hfst
  subst hfst
  have hr' : parseRequestLine (reset { pending := s }) ((reset { pending := s }).pending.take i) =
      (lineStatus (s.take i), q) := hr
  simp only [parseAvailable, Bool.false_eq_true, if_false, hi', hlen, hr']
  split
  · rename_i heq
    exact absurd (Prod.mk.inj heq).1 hne
  · rfl

theorem parseAvailable_behindLine (hi : find CRLF s = some i) (hlen : exceeds i lim.maxRequestLine = false)
    (hline : lineStatus (s.take i) = .cont) :
    ∃ p : HttpParser, SameCounts p {} ∧ parseAvailable lim { pending := s } =
      match find (CRLF ++ CRLF) (s.drop (i + 2)) with
      | none => if exceeds (s.drop (i + 2)).length lim.maxHeaderBytes then (.headerTooLarge, p) else (.cont, p)
      | some j =>
        match parseHeaders lim p (headerLines ((s.drop (i + 2)).take j)) with
        | (.cont, q) =>
          if ((s.drop (i + 2)).drop (j + 4)).length < q.bodyBytesExpected then (.cont, q)
          else (.gotAll, q.takeBody ((s.drop (i + 2)).drop (j + 4)))
        | r => r := by
  obtain ⟨m, uri, v, hm, hv, hu, hl⟩ := lineStatus_cont_iff.1 hline
  have hi' : find [CR, LF] (reset { pending := s }).pending = some i := hi
  have hline' : parseRequestLine (reset { pending := s }) ((reset { pending := s }).pending.take i) =
      (.cont, setRequestLine (reset { pending := s }) m uri v) := by
    change parseRequestLine _ (s.take i) = _
    rw [hl]
    exact parseRequestLine_of _ hm hv hu
  refine ⟨setRequestLine (reset { pending := s }) m uri v, ⟨rfl, rfl, rfl, rfl⟩, ?_⟩
  simp only [parseAvailable, Bool.false_eq_true, if_false, hi', hlen, hline']
  rfl

theorem refuses_of_status (h : (parseAvailable lim { pending := s }).1 = status) (hcont : status ≠ .cont)
    (hgot : status ≠ .gotAll) : Refuses lim s status := by
  cases hi : find CRLF s with
  | none =>
    rw [parseAvailable_noLine hi] at h
    split_ifs at h with hlen
    · exact h ▸ .unendedLine hi hlen
    · exact absurd h.symm hcont
  | some i =>
    cases hlen : exceeds i lim.maxRequestLine with
    | true =>
      rw [parseAvailable_longLine hi hlen] at h
      exact h ▸ .longLine hi hlen
    | false =>
      by_cases hline : lineStatus (s.take i) = .cont
      · obtain ⟨p, hcounts, heq⟩ := parseAvailable_behindLine hi hlen hline
        rw [heq] at h
        cases hj : find (CRLF ++ CRLF) (s.drop (i + 2)) with
        | none =>
          simp only [hj] at h
          split_ifs at h with hsec
          · exact h ▸ .unendedSection hi hlen hline hj hsec
          · exact absurd h.symm hcont
        | some j =>
          simp only [hj] at h
          have hsame : (parseHeaders lim p (headerLines ((s.drop (i + 2)).take j))).1 =
              headersStatus lim (headerLines ((s.drop (i + 2)).take j)) := parseHeaders_sameCounts hcounts _
          split at h
          · split_ifs at h
            · exact absurd h.symm hcont
            · exact absurd h.symm hgot
          · rw [hsame] at h
            subst h
            exact .badHeaders hi hlen hline hj hcont
      · rw [parseAvailable_badLine hi hlen hline] at h
        exact h ▸ .badLine hi hlen hline

theorem status_of_refuses (h : Refuses lim s status) :
    (parseAvailable lim { pending := s }).1 = status := by
  cases h with
  | unendedLine hnone hlen => rw [parseAvailable_noLine hnone, if_pos hlen]
  | longLine hi hlen => exact parseAvailable_longLine hi hlen
  | badLine hi hlen hne => exact parseAvailable_badLine hi hlen hne
  | unendedSection hi hlen hline hnone hsec =>
    obtain ⟨p, -, heq⟩ := parseAvailable_behindLine hi hlen hline
    rw [heq]
    simp only [hnone, hsec, if_true]
  | @badHeaders i j hi hlen hline hj hne =>
    obtain ⟨p, hcounts, heq⟩ := parseAvailable_behindLine hi hlen hline
    have hsame : (parseHeaders lim p (headerLines ((s.drop (i + 2)).take j))).1 =
        headersStatus lim (headerLines ((s.drop (i + 2)).take j)) := parseHeaders_sameCounts hcounts _
    rw [heq]
    simp only [hj]
    split
    · rename_i q hq
      rw [hq] at hsame
      exact absurd hsame.symm hne
    · exact hsame

theorem Refuses.ne (h : Refuses lim s status) : status ≠ .cont ∧ status ≠ .gotAll := by
  cases h with
  | unendedLine | longLine | unendedSection => exact ⟨by decide, by decide⟩
  | badLine hi hlen hne => exact ⟨hne, parseRequestLine_ne_gotAll _ _⟩
  | badHeaders hi hlen hline hj hne => exact ⟨hne, parseHeaders_ne_gotAll _ _ _⟩

theorem scan_fail_iff : scan lim s = .fail status ↔ Refuses lim s status := by
  constructor
  · intro h
    unfold scan at h
    split at h <;> simp only [Scan.fail.injEq, reduceCtorEq] at h
    rename_i status' q hgot hcont heq
    subst h
    exact refuses_of_status (congrArg Prod.fst heq) (fun hc => hcont (hc ▸ rfl)) (fun hc => hgot (hc ▸ rfl))
  · intro h
    have hstatus := status_of_refuses h
    obtain ⟨hcont, hgot⟩ := h.ne
    unfold scan
    rcases hr : parseAvailable lim { pending := s } with ⟨status', q⟩
    obtain rfl : status' = status := by rw [hr] at hstatus; exact hstatus
    cases status' <;> first | exact absurd rfl hcont | exact absurd rfl hgot | rfl

end Stages

/-! ## Header sections that are refused for their size -/

/-- a line is over a cap, behind lines that are taken -/
def Oversized (lim : Limits) (lines : List Bytes) : Prop :=
  ∃ fields n line post, lines = fields.map fieldLine ++ line :: post ∧ Takes lim fields n ∧
    (exceeds line.length lim.maxHeaderLine = true ∨ exceeds (fields.length + 1) lim.maxHeaderCount = true ∨
      exceeds ((fields.map fieldLine).flatten.length + line.length) lim.maxHeaderBytes = true)

section Sizes

variable {lim : Limits}

variable {lines : List Bytes}

theorem parseHeaders_append (h : parseHeaders lim p lines = (.cont, q)) (lines' : List Bytes) :
    parseHeaders lim p (lines ++ lines') = parseHeaders lim q lines' := by
  induction lines generalizing p with
  | nil =>
    obtain rfl := (Prod.mk.inj h).2
    rfl
  | cons line lines ih =>
    simp only [parseHeaders] at h
    simp only [cons_append, parseHeaders]
    split_ifs at h ⊢ with hlen
    · exact absurd (Prod.mk.inj h).1 (by decide)
    · rcases hr : parseHeaderLine lim p line with ⟨status, p'⟩
      rw [hr] at h
      cases status with
      | cont => exact ih h
      | _ => exact absurd (Prod.mk.inj h).1 (by decide)

theorem parseHeaders_stops (h : (parseHeaders lim p lines).1 ≠ .cont) :
    ∃ l line post q, lines = l ++ line :: post ∧ parseHeaders lim p l = (.cont, q) ∧
      (parseHeaders lim p lines).1 = (parseHeaders lim q [line]).1 := by
  induction lines generalizing p with
  | nil => exact absurd rfl h
  | cons line lines ih =>
    cases hlen : exceeds line.length lim.maxHeaderLine with
    | true => exact ⟨[], line, lines, p, rfl, rfl, by simp only [parseHeaders, hlen, if_true]⟩
    | false =>
      rcases hr : parseHeaderLine lim p line with ⟨status, p'⟩
      cases status with
      | cont =>
        have hstep : ∀ ls, parseHeaders lim p (line :: ls) = parseHeaders lim p' ls := by
          intro ls
          simp only [parseHeaders, hlen, Bool.false_eq_true, if_false, hr]
        rw [hstep] at h ⊢
        obtain ⟨l, line', post, q, rfl, hq, heq⟩ := ih h
        exact ⟨line :: l, line', post, q, rfl, (hstep l).trans hq, heq⟩
      | _ =>
        exact ⟨[], line, lines, p, rfl, rfl, by simp only [parseHeaders, hlen, Bool.false_eq_true, if_false, hr]⟩

theorem parseHeaderLine_tooLarge_iff :
    (parseHeaderLine lim p line).1 = .headerTooLarge ↔
      exceeds (p.headerCount + 1) lim.maxHeaderCount = true ∨
        exceeds (p.headerBytes + line.length) lim.maxHeaderBytes = true := by
  rcases parseHeaderLine_status lim p line with ⟨hlarge, hexceeds⟩ | ⟨hother, hwithin⟩
  · exact iff_of_true hlarge hexceeds
  · refine iff_of_false (fun hlarge => ?_) hwithin
    rw [hlarge] at hother
    exact absurd hother (by decide)

theorem parseHeaders_single_tooLarge_iff :
    (parseHeaders lim p [line]).1 = .headerTooLarge ↔
      exceeds line.length lim.maxHeaderLine = true ∨ exceeds (p.headerCount + 1) lim.maxHeaderCount = true ∨
        exceeds (p.headerBytes + line.length) lim.maxHeaderBytes = true := by
  rw [← parseHeaderLine_tooLarge_iff]
  simp only [parseHeaders]
  cases exceeds line.length lim.maxHeaderLine with
  | true => simp
  | false =>
    rcases parseHeaderLine lim p line with ⟨status, p'⟩
    cases status <;> simp

theorem headersStatus_tooLarge_iff :
    headersStatus lim lines = .headerTooLarge ↔ Oversized lim lines := by
  constructor
  · intro h
    have hne : (parseHeaders lim {} lines).1 ≠ .cont := by
      change headersStatus lim lines ≠ .cont
      rw [h]
      decide
    obtain ⟨l, line, post, q, rfl, hq, heq⟩ := parseHeaders_stops hne
    obtain ⟨fields, n, rfl, htakes, rfl⟩ := (parseHeaders_iff rfl).1 hq
    exact ⟨fields, n, line, post, rfl, htakes, parseHeaders_single_tooLarge_iff.1 (heq.symm.trans h)⟩
  · rintro ⟨fields, n, line, post, rfl, htakes, hover⟩
    have hq : parseHeaders lim {} (fields.map fieldLine) = (.cont, behind {} fields n) :=
      (parseHeaders_iff rfl).2 ⟨fields, n, rfl, htakes, rfl⟩
    have hone : (parseHeaders lim (behind {} fields n) [line]).1 = .headerTooLarge :=
      parseHeaders_single_tooLarge_iff.2 hover
    rw [headersStatus, parseHeaders_append hq]
    -- the lines behind the refused one are not looked at
    simp only [parseHeaders] at hone ⊢
    split_ifs at hone ⊢
    · rfl
    · rcases hr : parseHeaderLine lim (behind {} fields n) line with ⟨status, q'⟩
      rw [hr] at hone
      cases status with
      | headerTooLarge => rfl
      | _ => simp at hone

end Sizes

/-! ## Refused too early -/

/-- a request that begins the bytes is not refused before all of its line or all of its header section is there, unless
that is what happens to it then: its line is not of the very size of the cap, and a header section whose end is not seen
when the cap is reached is over a cap anyway -/
structure Steady (u : Bytes) : Prop where
  line : find CRLF u ≠ some kMaxRequestLine
  headers : ∀ i j, find CRLF u = some i → i < kMaxRequestLine → RequestLine (u.take i) →
    find (CRLF ++ CRLF) (u.drop (i + 2)) = some j → kMaxHeaderBytes < j + 3 →
    Oversized kLimits (headerLines ((u.drop (i + 2)).take j))

/-- a request starts at `u`, behind well-formed requests within the caps -/
def Starts (s u : Bytes) : Prop :=
  ∃ ts : List RequestText, (∀ t ∈ ts, t.Within kLimits) ∧ s = (ts.map RequestText.bytes).flatten ++ u

theorem starts_of_start (h : (scanner kLimits).Start s u) : Starts s u := by
  obtain ⟨w, is, hreads, rfl⟩ := h
  induction hreads with
  | nil => exact ⟨[], by simp, rfl⟩
  | @cons w w' i is hw _ ih =>
    obtain ⟨ts, hts, heq⟩ := ih
    have hscan : scan kLimits (w ++ []) = .item i [] := hw []
    obtain ⟨t, hlim, hbytes, -⟩ := scan_item hscan
    rw [append_nil, append_nil] at hbytes
    refine ⟨t :: ts, ?_, ?_⟩
    · intro t' ht'
      rcases mem_cons.1 ht' with rfl | ht'
      · exact hlim
      · exact hts t' ht'
    · rw [append_assoc, heq, hbytes, map_cons, flatten_cons, append_assoc]

theorem start_of_starts (h : Starts s u) : (scanner kLimits).Start s u := by
  obtain ⟨ts, hts, rfl⟩ := h
  refine ⟨_, ts.map RequestText.request, ?_, rfl⟩
  induction ts with
  | nil => exact .nil
  | cons t ts ih =>
    rw [map_cons, map_cons]
    exact .cons (scan_text (hts t (by simp))) (ih fun t' ht' => hts t' (mem_cons_of_mem _ ht'))

theorem exceeds_some {cap : ℕ} : exceeds n (some cap) = true ↔ cap < n := by simp [exceeds]

theorem not_exceeds_some {cap : ℕ} : exceeds n (some cap) = false ↔ n ≤ cap := by simp [exceeds]

theorem drop_append_of_find {p : Bytes} {i : ℕ} (hi : find CRLF p = some i) (t : Bytes) :
    (p ++ t).take i = p.take i ∧ (p ++ t).drop (i + 2) = p.drop (i + 2) ++ t := by
  have hlen : i + 2 ≤ p.length := find_length_le (by decide) hi
  exact ⟨take_append_of_le_length (by omega), drop_append_of_le_length hlen⟩

theorem refuses_append {p t : Bytes} (h : Refuses kLimits p status) (hu : Steady (p ++ t)) :
    Refuses kLimits (p ++ t) status := by
  cases h with
  | unendedLine hnone hlen =>
    have hp : kMaxRequestLine < p.length := exceeds_some.1 hlen
    cases hi : find CRLF (p ++ t) with
    | none =>
      refine .unendedLine hi (exceeds_some.2 ?_)
      rw [length_append]
      omega
    | some i =>
      -- the CRLF is not in `p`, so that at most its CR is
      have hlate : p.length < i + 2 := by
        by_contra hle
        have := find_prefix_some (by decide) (List.prefix_append p t) hi (not_lt.1 hle)
        rw [hnone] at this
        cases this
      have hne : i ≠ kMaxRequestLine := fun hc => hu.line (hc ▸ hi)
      exact .longLine hi (exceeds_some.2 (by omega))
  | longLine hi hlen => exact .longLine (find_append_some (by decide) hi t) hlen
  | badLine hi hlen hne =>
    obtain ⟨htake, -⟩ := drop_append_of_find hi t
    rw [← htake] at hne ⊢
    exact .badLine (find_append_some (by decide) hi t) hlen hne
  | @unendedSection i hi hlen hline hnone hsec =>
    obtain ⟨htake, hdrop⟩ := drop_append_of_find hi t
    have hi' := find_append_some (by decide) hi t
    have hline' : lineStatus ((p ++ t).take i) = .cont := htake ▸ hline
    have hp : kMaxHeaderBytes < (p.drop (i + 2)).length := exceeds_some.1 hsec
    cases hj : find (CRLF ++ CRLF) ((p ++ t).drop (i + 2)) with
    | none =>
      refine .unendedSection hi' hlen hline' hj (exceeds_some.2 ?_)
      rw [hdrop, length_append]
      omega
    | some j =>
      have hlate : (p.drop (i + 2)).length < j + 4 := by
        by_contra hle
        rw [hdrop] at hj
        have := find_prefix_some (by decide) (List.prefix_append (p.drop (i + 2)) t) hj (not_lt.1 hle)
        rw [hnone] at this
        cases this
      have hne : i ≠ kMaxRequestLine := fun hc => hu.line (hc ▸ hi')
      have hover := hu.headers i j hi' (lt_of_le_of_ne (not_exceeds_some.1 hlen) hne) (lineStatus_cont_iff.1 hline') hj
        (by omega)
      rw [← headersStatus_tooLarge_iff] at hover
      have hrefuse := Refuses.badHeaders hi' hlen hline' hj (by rw [hover]; decide)
      rwa [hover] at hrefuse
  | @badHeaders i j hi hlen hline hj hne =>
    obtain ⟨htake, hdrop⟩ := drop_append_of_find hi t
    have hjlen : j ≤ (p.drop (i + 2)).length := (Nat.le_add_right _ _).trans (find_length_le (by decide) hj)
    have hblock : ((p ++ t).drop (i + 2)).take j = (p.drop (i + 2)).take j := by
      rw [hdrop, take_append_of_le_length hjlen]
    rw [← hblock] at hne ⊢
    exact .badHeaders (find_append_some (by decide) hi t) hlen (htake ▸ hline)
      (hdrop ▸ find_append_some (by decide) hj t) hne

theorem settled_of_steady (h : Steady u) : (scanner kLimits).Settled u := by
  rintro p t status rfl hfail
  exact scan_fail_iff.2 (refuses_append (scan_fail_iff.1 hfail) h)

/-- the refusals for size -/
def TooLarge (status : ParseStatus) : Prop := status = .uriTooLong ∨ status = .headerTooLarge ∨
    status = .payloadTooLarge

theorem refuses_unendedLine (h : find CRLF u = some kMaxRequestLine) :
    Refuses kLimits (u.take (kMaxRequestLine + 1)) .uriTooLong := by
  have hlen : kMaxRequestLine + 2 ≤ u.length := find_length_le (by decide) h
  have hcut : (u.take (kMaxRequestLine + 1)).length = kMaxRequestLine + 1 := by
    rw [length_take]
    omega
  refine .unendedLine (find_prefix_none (by decide) (List.take_prefix _ _) h ?_) (exceeds_some.2 ?_)
  · change _ < kMaxRequestLine + 2
    omega
  · omega

theorem refuses_unendedSection {i j : ℕ} (hi : find CRLF u = some i) (hlen : i ≤ kMaxRequestLine)
    (hline : RequestLine (u.take i)) (hj : find (CRLF ++ CRLF) (u.drop (i + 2)) = some j)
    (hlate : kMaxHeaderBytes < j + 3) :
    Refuses kLimits (u.take (i + 2 + (j + 3))) .headerTooLarge := by
  have hjlen : j + 4 ≤ (u.drop (i + 2)).length := find_length_le (by decide) hj
  have hdrop : (u.take (i + 2 + (j + 3))).drop (i + 2) = (u.drop (i + 2)).take (j + 3) := by
    rw [drop_take]
    congr 1
    omega
  have hcut : ((u.drop (i + 2)).take (j + 3)).length = j + 3 := by
    rw [length_take]
    omega
  rw [length_drop] at hjlen
  have hi' : find CRLF (u.take (i + 2 + (j + 3))) = some i := by
    refine find_prefix_some (by decide) (List.take_prefix _ _) hi ?_
    change i + 2 ≤ _
    rw [length_take]
    omega
  have htake : (u.take (i + 2 + (j + 3))).take i = u.take i := by
    rw [take_take]
    congr 1
    omega
  refine .unendedSection hi' (not_exceeds_some.2 hlen) (lineStatus_cont_iff.2 (htake ▸ hline)) ?_ (exceeds_some.2 ?_)
  · rw [hdrop]
    refine find_prefix_none (by decide) (List.take_prefix _ _) hj ?_
    change _ < j + 4
    omega
  · rw [hdrop, hcut]
    exact hlate

/-! ## Streams -/

/-- the request line with its CRLF and the header section with its CRLFCRLF are within 8192 and 32768 bytes, if they end
-/
structure Clear (u : Bytes) : Prop where
  line : ∀ i, find CRLF u = some i → i + 2 ≤ kMaxRequestLine
  headers : ∀ i j, find CRLF u = some i → find (CRLF ++ CRLF) (u.drop (i + 2)) = some j → j + 4 ≤ kMaxHeaderBytes

theorem Clear.steady (h : Clear u) : Steady u := by
  constructor
  · intro hi
    have := h.line _ hi
    omega
  · intro i j hi _ _ hj hlate
    have := h.headers i j hi hj
    omega

theorem clear_of_length (h : u.length ≤ kMaxRequestLine) : Clear u := by
  constructor
  · intro i hi
    have hlen : i + 2 ≤ u.length := find_length_le (by decide) hi
    omega
  · intro i j _ hj
    have hlen : j + 4 ≤ (u.drop (i + 2)).length := find_length_le (by decide) hj
    rw [length_drop] at hlen
    have : kMaxRequestLine ≤ kMaxHeaderBytes := by decide
    omega

theorem clear_of_starts (h : s.length ≤ kMaxRequestLine) (hu : Starts s u) : Clear u := by
  obtain ⟨ts, -, rfl⟩ := hu
  rw [length_append] at h
  exact clear_of_length (by omega)

theorem received_one (s : Bytes) : received kLimits [s] = (scanner kLimits).drain s := by
  rw [received_eq_feed, Scanner.feed_one]

theorem received_of_steady (h : ∀ u, Starts s u → Steady u) {chunks : List Bytes} (hcut : chunks.flatten = s) :
    received kLimits chunks = received kLimits [s] := by
  have hempty : (scanner kLimits).scan [] = .more := rfl
  rw [received_one, received_eq_feed, Scanner.feed_eq_drain hempty, nil_append, hcut]
  rw [hcut]
  exact fun u hu => settled_of_steady (h u (starts_of_start hu))

/-- **Incremental parsing is one-shot parsing.** For every stream of pipelined requests, valid or not, whose request
lines and header sections stay clear of the caps, and for every way of cutting it, the session gets the same requests,
the same first error, and the same pending bytes if there is none, as when the stream comes in one piece. -/
theorem incremental_eq_oneShot {s : Bytes} (h : ∀ u, Starts s u → Clear u) {chunks : List Bytes}
    (hcut : chunks.flatten = s) : received kLimits chunks = received kLimits [s] :=
  received_of_steady (fun u hu => (h u hu).steady) hcut

theorem incremental_put :
    received kLimits [putMessage.serialize ++ str "GE", str "T /", str " HTTP/1.1\r"] =
      received kLimits [putMessage.serialize ++ str "GET / HTTP/1.1\r"] := by
  have hshort : (putMessage.serialize ++ str "GET / HTTP/1.1\r").length ≤ kMaxRequestLine := by decide +kernel
  exact incremental_eq_oneShot (fun u hu => clear_of_starts hshort hu) (by decide +kernel)

/-- the verdicts on sizes do not depend on how the stream is cut: a request is refused for its size under one cut iff it
is under another, and none is that is accepted when the stream comes in one piece -/
def SizeVerdictsAgree (s : Bytes) : Prop :=
  ∀ chunks chunks' : List Bytes, chunks.flatten = s → chunks'.flatten = s →
    Scanner.SameVerdicts TooLarge (received kLimits chunks) (received kLimits chunks') ∧
      ∀ status, TooLarge status → (received kLimits chunks).2 = .error status →
        (received kLimits [s]).1.length ≤ (received kLimits chunks).1.length

theorem refuses_of_agree {p : Bytes} (h : SizeVerdictsAgree s) (hu : Starts s u) (hp : p <+: u)
    (hlarge : TooLarge status) (hrefuses : Refuses kLimits p status) : Refuses kLimits u status := by
  obtain ⟨t, ht⟩ := hp
  refine scan_fail_iff.1 (Scanner.settled_of_verdicts (S := scanner kLimits) ?_ (start_of_starts hu) hlarge ht.symm
    (scan_fail_iff.2 hrefuses))
  intro chunks hcut
  rw [← received_eq_feed, ← received_eq_feed]
  exact (h chunks [s] hcut (by simp)).1

theorem steady_of_agree (h : SizeVerdictsAgree s) (hu : Starts s u) : Steady u := by
  constructor
  · intro hi
    have hrefuses := refuses_of_agree h hu (List.take_prefix _ _) (.inl rfl) (refuses_unendedLine hi)
    generalize hs : ParseStatus.uriTooLong = status at hrefuses
    cases hrefuses with
    | unendedLine hnone => simp [hi] at hnone
    | longLine hi' hlen =>
      obtain rfl := some.inj (hi.symm.trans hi')
      exact absurd (exceeds_some.1 hlen) (lt_irrefl _)
    | @badLine i =>
      have hmem := lineStatus_mem (u.take i)
      rw [← hs] at hmem
      exact absurd hmem (by decide)
    | unendedSection => cases hs
    | @badHeaders i j =>
      have hmem : headersStatus kLimits (headerLines ((u.drop (i + 2)).take j)) ∈ _ :=
        parseHeaders_status kLimits {} _
      rw [← hs] at hmem
      exact absurd hmem (by decide)
  · intro i j hi hlen hline hj hlate
    have hrefuses := refuses_of_agree h hu (List.take_prefix _ _) (.inr (.inl rfl))
      (refuses_unendedSection hi hlen.le hline hj hlate)
    generalize hs : ParseStatus.headerTooLarge = status at hrefuses
    cases hrefuses with
    | unendedLine | longLine => cases hs
    | @badLine k =>
      have hmem := lineStatus_mem (u.take k)
      rw [← hs] at hmem
      exact absurd hmem (by decide)
    | unendedSection hi' _ _ hnone _ =>
      obtain rfl := some.inj (hi.symm.trans hi')
      simp [hj] at hnone
    | badHeaders hi' _ _ hj' _ =>
      obtain rfl := some.inj (hi.symm.trans hi')
      obtain rfl := some.inj (hj.symm.trans hj')
      exact headersStatus_tooLarge_iff.1 hs.symm

/-- **When the verdicts on sizes depend on the bytes only.** For every stream they are the same under any two cuts iff
every request start of the stream is steady. -/
theorem size_verdicts_iff (s : Bytes) : SizeVerdictsAgree s ↔ ∀ u, Starts s u → Steady u := by
  constructor
  · intro h u hu
    exact steady_of_agree h hu
  · intro h chunks chunks' hcut hcut'
    rw [received_of_steady h hcut, received_of_steady h hcut']
    exact ⟨fun n e _ => Iff.rfl, fun _ _ _ => le_rfl⟩

theorem size_verdicts_put : SizeVerdictsAgree putMessage.serialize := by
  have hshort : putMessage.serialize.length ≤ kMaxRequestLine := by decide +kernel
  exact (size_verdicts_iff _).2 fun u hu => (clear_of_starts hshort hu).steady

/-! ## Requests that are refused in two pieces -/

def filler (n : ℕ) : Bytes := List.replicate n 97

theorem length_filler (n : ℕ) : (filler n).length = n := length_replicate

theorem not_mem_filler {b : UInt8} (hb : b ≠ 97) (n : ℕ) : b ∉ filler n := fun h => hb (eq_of_mem_replicate h)

theorem clean_filler (n : ℕ) : Clean (filler n) := ⟨not_mem_filler (by decide) n, not_mem_filler (by decide) n⟩

/-- a request whose line has exactly the size of the cap -/
def longMessage : MessageParts where
  method := .get
  version := .http11
  target := filler 8179
  headers := [(str "Host", str " x")]
  body := []
  method_ok := get_ne_invalid
  version_ok := http11_ne_unknown
  target_ok := ⟨not_mem_filler (by decide) _, clean_filler _⟩
  headers_ne := by decide
  names_ok := by decide +kernel
  names_nodup := by decide +kernel
  values_ok := by decide +kernel
  length_ok := by
    intro fv hfv hname
    obtain rfl := mem_singleton.1 hfv
    exact absurd hname (by decide +kernel)
  body_none := fun _ => rfl
  requestLine_le := by
    simp only [length_append, length_cons, length_filler]
    decide +kernel
  headerLine_le := by decide +kernel
  headerCount_le := by decide
  headerBytes_le := by decide +kernel
  body_le := by decide +kernel

def wideNames : List Bytes := [str "a", str "b", str "c", str "d"]

theorem wideNames_ok : ∀ name ∈ wideNames, name.length = 1 ∧ (name ≠ [] ∧ colon ∉ name ∧ Clean name ∧
    lowerCopy name ≠ str "transfer-encoding") ∧ lowerCopy name ≠ str "content-length" := by decide +kernel

theorem wideHeaders_ne : (wideNames.map fun name => (name, filler 8188)) ≠ [] := by decide

theorem wideHeaders_le :
    ((wideNames.map fun name => (name, filler 8188)).map fieldLine).flatten.length ≤ kMaxHeaderBytes := by
  decide +kernel

/-- a request whose header lines are within the caps, but not with their CRLFs -/
def wideMessage : MessageParts where
  method := .get
  version := .http11
  target := str "/"
  headers := wideNames.map fun name => (name, filler 8188)
  body := []
  method_ok := get_ne_invalid
  version_ok := http11_ne_unknown
  target_ok := by decide +kernel
  headers_ne := wideHeaders_ne
  names_ok := by
    intro fv hfv
    obtain ⟨name, hname, rfl⟩ := mem_map.1 hfv
    exact (wideNames_ok name hname).2.1
  names_nodup := by decide +kernel
  values_ok := by
    intro fv hfv
    obtain ⟨name, -, rfl⟩ := mem_map.1 hfv
    exact clean_filler _
  length_ok := by
    intro fv hfv hcl
    obtain ⟨name, hname, rfl⟩ := mem_map.1 hfv
    exact absurd hcl (wideNames_ok name hname).2.2
  body_none := fun _ => rfl
  requestLine_le := by decide +kernel
  headerLine_le := by
    intro fv hfv
    obtain ⟨name, hname, rfl⟩ := mem_map.1 hfv
    simp only [fieldLine, length_append, length_cons, length_filler, (wideNames_ok name hname).1]
    decide
  headerCount_le := by decide
  headerBytes_le := wideHeaders_le
  body_le := by decide +kernel

theorem received_serialize (r : MessageParts) : received kLimits [r.serialize] = ([r.toText.request], .ok []) := by
  have hscan : (scanner kLimits).scan r.serialize = .item r.toText.request [] := by
    have h := scan_text r.toText_within []
    rwa [append_nil, MessageParts.toText_bytes] at h
  have hempty : (scanner kLimits).scan [] = .more := rfl
  rw [received_one, Scanner.drain_item hscan, Scanner.drain_more hempty]

theorem received_refused (h : Refuses kLimits (u.take n) status) :
    received kLimits [u.take n, u.drop n] = ([], .error status) := by
  have hscan : (scanner kLimits).scan (u.take n) = .fail status := scan_fail_iff.2 h
  rw [received_eq_feed, Scanner.feed, nil_append, Scanner.drain_fail hscan]

theorem find_serialize (r : MessageParts) : find CRLF r.serialize = some r.toText.requestLine.length := by
  have h := find_line r.toText []
  rwa [append_nil, MessageParts.toText_bytes] at h

/-- a request with a line of 8192 bytes is accepted in one piece and refused when its LF comes later; and so is one with
header lines of 32760 bytes when the last byte of its header section comes later -/
theorem refused_in_two :
    (received kLimits [longMessage.serialize] = ([longMessage.toText.request], .ok []) ∧
      received kLimits [longMessage.serialize.take 8193, longMessage.serialize.drop 8193] = ([], .error .uriTooLong)) ∧
    received kLimits [wideMessage.serialize] = ([wideMessage.toText.request], .ok []) ∧
      received kLimits [wideMessage.serialize.take 32785, wideMessage.serialize.drop 32785] =
        ([], .error .headerTooLarge) := by
  have hlong : longMessage.toText.requestLine.length = kMaxRequestLine := by
    decide +kernel
  have hwide : wideMessage.toText.requestLine.length = 14 := by decide +kernel
  have hblock : (joinPair CR LF (wideMessage.toText.fields.map fieldLine)).length = 32766 := by
    decide +kernel
  refine ⟨⟨received_serialize _, received_refused (refuses_unendedLine ?_)⟩, received_serialize _, received_refused ?_⟩
  · rw [find_serialize, hlong]
  · have hi := find_serialize wideMessage
    have hj := find_section wideMessage.toText []
    have hline := take_line wideMessage.toText []
    rw [append_nil, MessageParts.toText_bytes] at hj hline
    rw [hblock] at hj
    refine refuses_unendedSection hi (by decide) ?_ hj (by decide)
    rw [hline]
    exact ⟨.get, str "/", .http11, by decide, by decide, by decide +kernel, rfl⟩

end HttpParser

end Coropact.Http
