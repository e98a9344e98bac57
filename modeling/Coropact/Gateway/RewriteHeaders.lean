/-
The response head on its way to the client (`ProxyPass::RewriteHeaders` in `src/gateway/proxy_pass.cc`).

The function copies the head line by line, replaces Server lines, and reads off the status, the framing of the body and
whether the upstream keeps the connection. It cuts the first line at the first CR and the others at LF, so on a head
whose CR and LF stand only in CRLF both are the lines of the head.
-/
import Coropact.Http.Response

namespace Coropact.Gateway

open Coropact.Http Coropact.Text ResponseHead List Option

/-! ## Model -/

inductive BodyFraming where
  | closeDelimited | contentLength | chunked | noBody
deriving DecidableEq, Repr

structure ResponseState where
  framing : BodyFraming := .closeDelimited
  bodyRemaining : ℕ := 0
  upstreamKeepalive : Bool := true
  status : ℤ := 0
deriving DecidableEq, Repr

def firstLineStatus (firstLine : Bytes) : ℤ :=
  if 12 ≤ firstLine.length ∧ firstLine[8]? = some SP then (fromCharsInt ((firstLine.drop 9).take 3)).getD 0 else 0

def noBody (method : Method) (status : ℤ) : Bool :=
  method = .head ∨ status = 204 ∨ status = 304 ∨ (100 ≤ status ∧ status < 200)

def rewriteLine (line : Bytes) : Bytes :=
  match cutAt colon line with
  | some (name, _) => if asciiCaseEqual name (str "server") then str "Server: runtime-gateway" else line
  | none => line

/-- what a header line says about the framing of the body -/
def scanLine (state : ResponseState) (line : Bytes) : ResponseState :=
  match cutAt colon line with
  | none => state
  | some (name, value) =>
    let value := value.dropWhile isBlank
    if asciiCaseEqual name (str "content-length") then
      match fromChars (2 ^ 64) value with
      | some (n, _) => { state with framing := .contentLength, bodyRemaining := n }
      | none => state
    else if asciiCaseEqual name (str "transfer-encoding") then
      -- the search for `chunked` at every position of the value
      if (find (str "chunked") (lowerCopy value)).isSome then { state with framing := .chunked } else state
    else if asciiCaseEqual name (str "connection") then
      if asciiCaseEqual value (str "close") then { state with upstreamKeepalive := false } else state
    else state

/-- the loop over the lines behind the first: `pieces` are the texts ended by LF -/
def rewriteLines (noBody : Bool) : ResponseState → Bytes → List Bytes → ResponseState × Bytes
  | state, out, [] => (state, out)
  | state, out, piece :: pieces =>
    let line := dropCR piece
    let out := out ++ rewriteLine line ++ CRLF
    if line = [] then (state, out)
    else rewriteLines noBody (if noBody then state else scanLine state line) out pieces

def rewriteHeaders (rawHeaders : Bytes) (method : Method) : ResponseState × Bytes :=
  let (status, out, rest) :=
    match cutAt CR rawHeaders with
    | some (firstLine, rest) => (firstLineStatus firstLine, firstLine ++ CRLF, rest.drop 1)
    | none => (0, [], rawHeaders)
  let state : ResponseState :=
    if noBody method status then { framing := .noBody, bodyRemaining := 0, upstreamKeepalive := true, status := status }
    else { status := status }
  rewriteLines (noBody method status) state out (terminated LF rest)

/-! ## Well-formed heads -/

def rewriteHead (h : ResponseHead) : ResponseHead :=
  { h with
    lines := h.lines.map rewriteLine
    lines_ok := by
      intro l hl
      obtain ⟨l', hl', rfl⟩ := mem_map.1 hl
      unfold rewriteLine
      split
      · split_ifs
        · decide
        · exact h.lines_ok l' hl'
      · exact h.lines_ok l' hl' }

def headState (h : ResponseHead) (method : Method) : ResponseState :=
  if noBody method h.status then
    { framing := .noBody, bodyRemaining := 0, upstreamKeepalive := true, status := h.status }
  else h.lines.foldl scanLine { status := h.status }

variable {line l v name : Bytes} {ls : List Bytes} {n : ℕ}

theorem rewriteLines_lines (b : Bool) (state : ResponseState) (out : Bytes) (h : ∀ l ∈ ls, l ≠ [] ∧ Clean l)
    (rest : Bytes) :
    rewriteLines b state out (terminated LF ((ls.map (· ++ CRLF)).flatten ++ CR :: LF :: rest)) =
      (if b then state else ls.foldl scanLine state, out ++ ((ls.map rewriteLine).map (· ++ CRLF)).flatten ++
        CRLF) := by
  induction ls generalizing state out with
  | nil =>
    have hcut := terminated_append (c := LF) (l := [CR]) (by decide) rest
    rw [singleton_append] at hcut
    have hline : dropCR [CR] = [] := by decide
    have hempty : rewriteLine [] = [] := by decide
    simp [hcut, rewriteLines, hline, hempty]
  | cons l ls ih =>
    obtain ⟨hne, -, hlf⟩ := h l (by simp)
    have hl : LF ∉ l ++ [CR] := by
      simp only [mem_append, not_or]
      exact ⟨hlf, by decide⟩
    rw [flatten_lines_cons, append_cons, terminated_append hl, rewriteLines, dropCR_append, if_neg hne,
      ih _ _ fun m hm => h m (mem_cons_of_mem _ hm)]
    cases b <;> simp

theorem fromCharsInt_digits {d : Bytes} (hne : d ≠ []) (hd : ∀ b ∈ d, isDigit b = true) (hb : decimal d < 2 ^ 31) :
    fromCharsInt d = some (decimal d : ℤ) := by
  cases d with
  | nil => exact absurd rfl hne
  | cons b d =>
    have hminus : b ≠ 45 := by
      rintro rfl
      exact absurd (hd 45 (by simp)) (by decide)
    have := fromChars_digits (s := []) hne hd (by simp) hb
    rw [append_nil] at this
    rw [fromCharsInt, if_neg hminus, this]
    rfl

theorem firstLineStatus_statusLine (h : ResponseHead) : firstLineStatus h.statusLine = h.status := by
  obtain ⟨hv, -⟩ := h.version_ok
  obtain ⟨hc, hdigits⟩ := h.code_ok
  have hlen : 12 ≤ h.statusLine.length := by
    simp only [statusLine, length_append, length_cons]
    omega
  have hsp : h.statusLine[8]? = some SP := by
    rw [statusLine, List.getElem?_append_right (by omega), hv]
    rfl
  have hcode : (h.statusLine.drop 9).take 3 = h.code := by
    have hsplit : h.statusLine = (h.version ++ [SP]) ++ (h.code ++ h.reason) := by simp [statusLine]
    have h9 : (h.version ++ [SP]).length = 9 := by rw [length_append, hv]; rfl
    rw [hsplit, ← h9, drop_left, ← hc, take_left]
  have hne : h.code ≠ [] := by
    intro hnil
    rw [hnil] at hc
    exact absurd hc (by decide)
  have hlt : decimal h.code < 2 ^ 31 := by
    have := decimal_lt hdigits
    rw [hc] at this
    omega
  rw [firstLineStatus, if_pos ⟨hlen, hsp⟩, hcode, fromCharsInt_digits hne hdigits hlt]
  rfl

theorem statusLine_clean (h : ResponseHead) : Clean h.statusLine := by
  have hcode : Clean h.code := by
    constructor <;> intro hc <;> exact absurd (h.code_ok.2 _ hc) (by decide)
  have hv := h.version_ok.2
  have hr := h.reason_ok
  simp only [Clean, statusLine, mem_append, mem_cons, not_or] at *
  exact ⟨⟨hv.1, by decide, hcode.1, hr.1⟩, hv.2, by decide, hcode.2, hr.2⟩

/-- **The head relayed to the client** is the upstream's with its Server lines replaced. -/
theorem rewriteHeaders_bytes (h : ResponseHead) (m : Method) :
    rewriteHeaders h.bytes m = (headState h m, (rewriteHead h).bytes) := by
  have hcut : cutAt CR h.bytes = some (h.statusLine, LF :: ((h.lines.map (· ++ CRLF)).flatten ++ CRLF)) := by
    rw [bytes, flatten_lines_cons, cutAt_append (statusLine_clean h).1]
  have hlines := rewriteLines_lines (noBody m h.status)
    (if noBody m h.status then { framing := .noBody, bodyRemaining := 0, upstreamKeepalive := true, status := h.status }
      else { status := h.status }) (h.statusLine ++ CRLF) h.lines_ok []
  have hline : (rewriteHead h).statusLine = h.statusLine := rfl
  simp only [rewriteHeaders, hcut, firstLineStatus_statusLine, drop_one]
  refine hlines.trans (Prod.ext ?_ ?_)
  · rw [headState]
    cases noBody m h.status <;> rfl
  · rw [bytes, hline, map_cons]
    rfl

theorem bytes_eq_joinPair (h : ResponseHead) :
    h.bytes = joinPair CR LF (h.statusLine :: h.lines) ++ [CR, LF, CR, LF] := by
  rw [bytes, CRLF, flatten_map_append_pair CR LF (by simp)]
  simp

theorem lines_pairFree (h : ResponseHead) : ∀ l ∈ h.statusLine :: h.lines, PairFree CR LF l := by
  intro l hl
  rcases mem_cons.1 hl with rfl | hl
  · exact pairFree_of_not_mem (.inl (statusLine_clean h).1)
  · exact pairFree_of_not_mem (.inl (h.lines_ok l hl).2.1)

theorem find_head (h : ResponseHead) :
    ∃ i, i + 4 = h.bytes.length ∧ ∀ rest, find (CRLF ++ CRLF) (h.bytes ++ rest) = some i := by
  refine ⟨(joinPair CR LF (h.statusLine :: h.lines)).length, ?_, fun rest => ?_⟩
  · rw [bytes_eq_joinPair, length_append]
    rfl
  · rw [bytes_eq_joinPair, append_assoc]
    exact find_joinPair (by decide) h.statusLine h.lines (lines_pairFree h _ (by simp))
      (fun l hl => ⟨lines_pairFree h l (by simp [hl]), (h.lines_ok l hl).1⟩) rest

theorem head_unique {h h' : ResponseHead} {rest rest' : Bytes} (heq : h.bytes ++ rest = h'.bytes ++ rest') :
    h.statusLine = h'.statusLine ∧ h.lines = h'.lines ∧ rest = rest' := by
  obtain ⟨i, hi, hfind⟩ := find_head h
  obtain ⟨i', hi', hfind'⟩ := find_head h'
  have hsame : i = i' := some.inj ((hfind rest).symm.trans (heq ▸ hfind' rest'))
  obtain ⟨hbytes, hrest⟩ := append_inj heq (by omega)
  rw [bytes_eq_joinPair, bytes_eq_joinPair] at hbytes
  have hlines := congrArg (splitPair CR LF) (append_cancel_right hbytes)
  rw [splitPair_joinPair (by decide) (by simp) (lines_pairFree h),
    splitPair_joinPair (by decide) (by simp) (lines_pairFree h')] at hlines
  obtain ⟨hstatus, hlines⟩ := List.cons.inj hlines
  exact ⟨hstatus, hlines, hrest⟩

/-! ## What the scan finds -/

/-- the length a Content-Length line announces to the scan -/
def lengthLine (line : Bytes) : Option ℕ :=
  match cutAt colon line with
  | some (name, value) =>
    if asciiCaseEqual name (str "content-length") then (fromChars (2 ^ 64) (value.dropWhile isBlank)).map Prod.fst
    else none
  | none => none

def chunkedLine (line : Bytes) : Bool :=
  match cutAt colon line with
  | some (name, value) =>
    asciiCaseEqual name (str "transfer-encoding") && (find (str "chunked") (lowerCopy (value.dropWhile isBlank))).isSome
  | none => false

def closeLine (line : Bytes) : Bool :=
  match cutAt colon line with
  | some (name, value) =>
    asciiCaseEqual name (str "connection") && asciiCaseEqual (value.dropWhile isBlank) (str "close")
  | none => false

theorem asciiCaseEqual_ne {a b : Bytes} (ha : asciiCaseEqual name a = true) (hab : lowerCopy a ≠ lowerCopy b) :
    asciiCaseEqual name b = false := by
  rw [Bool.eq_false_iff]
  intro hb
  rw [asciiCaseEqual_iff] at ha hb
  exact hab (ha.symm.trans hb)

/-- what a line says about the framing: a length, or that the body is chunked -/
def framingLine (line : Bytes) : Option (Option ℕ) :=
  match lengthLine line with
  | some n => some (some n)
  | none => if chunkedLine line then some none else none

theorem scanLine_eq (state : ResponseState) (line : Bytes) :
    scanLine state line =
      match framingLine line with
      | some (some n) => { state with framing := .contentLength, bodyRemaining := n }
      | some none => { state with framing := .chunked }
      | none => if closeLine line then { state with upstreamKeepalive := false } else state := by
  unfold scanLine framingLine lengthLine chunkedLine closeLine
  cases hcut : cutAt colon line with
  | none => rfl
  | some nv =>
    obtain ⟨name, value⟩ := nv
    by_cases h1 : asciiCaseEqual name (str "content-length") = true
    · have h2 := asciiCaseEqual_ne h1 (b := str "transfer-encoding") (by decide)
      have h3 := asciiCaseEqual_ne h1 (b := str "connection") (by decide)
      simp only [h1, h2, h3, if_true, Bool.false_and, Bool.false_eq_true, if_false]
      cases fromChars (2 ^ 64) (value.dropWhile isBlank) with
      | none => rfl
      | some r => rfl
    · by_cases h2 : asciiCaseEqual name (str "transfer-encoding") = true
      · have h3 := asciiCaseEqual_ne h2 (b := str "connection") (by decide)
        by_cases hc : (find (str "chunked") (lowerCopy (value.dropWhile isBlank))).isSome = true
        · simp [h1, h2, hc]
        · simp [h1, h2, h3, hc]
      · simp [h1, h2, ite_and]

theorem scanLine_status (state : ResponseState) (line : Bytes) : (scanLine state line).status = state.status := by
  rw [scanLine_eq]
  split
  · rfl
  · rfl
  · split_ifs <;> rfl

theorem scan_status (ls : List Bytes) (state : ResponseState) : (ls.foldl scanLine state).status = state.status := by
  induction ls generalizing state with
  | nil => rfl
  | cons l ls ih => rw [foldl_cons, ih, scanLine_status]

/-- what a scan leaves that has found this -/
def Framed (found : Option (Option ℕ)) (before after : ResponseState) : Prop :=
  match found with
  | some (some n) => after.framing = .contentLength ∧ after.bodyRemaining = n
  | some none => after.framing = .chunked
  | none => after.framing = before.framing ∧ after.bodyRemaining = before.bodyRemaining

theorem scanLine_framed (state : ResponseState) (line : Bytes) :
    Framed (framingLine line) state (scanLine state line) := by
  rw [scanLine_eq]
  rcases framingLine line with - | - | n
  · dsimp only
    split_ifs <;> exact ⟨rfl, rfl⟩
  · rfl
  · exact ⟨rfl, rfl⟩

/-- the last line that says something about the framing decides -/
theorem scan_framed (ls : List Bytes) (state : ResponseState) :
    Framed (ls.filterMap framingLine).getLast? state (ls.foldl scanLine state) := by
  induction ls using List.reverseRecOn with
  | nil => exact ⟨rfl, rfl⟩
  | append_singleton ls l ih =>
    have hl := scanLine_framed (ls.foldl scanLine state) l
    rw [foldl_concat, filterMap_append, filterMap_cons, filterMap_nil]
    cases hline : framingLine l with
    | some x =>
      rw [hline] at hl
      rw [List.getLast?_append_of_ne_nil _ (by simp), List.getLast?_singleton]
      cases x <;> exact hl
    | none =>
      rw [hline] at hl
      rw [append_nil]
      revert ih
      rcases (ls.filterMap framingLine).getLast? with - | - | n <;> intro ih
      · exact ⟨hl.1.trans ih.1, hl.2.trans ih.2⟩
      · exact hl.1.trans ih
      · exact ⟨hl.1.trans ih.1, hl.2.trans ih.2⟩

theorem scan_chunked {state : ResponseState} (h : (ls.filterMap framingLine).getLast? = some none) :
    (ls.foldl scanLine state).framing = .chunked := by
  have hscan := scan_framed ls state
  rwa [h] at hscan

theorem scan_length_iff (ls : List Bytes) (n : ℕ) {state : ResponseState} (hs : state.framing ≠ .contentLength) :
    (ls.foldl scanLine state).framing = .contentLength ∧ (ls.foldl scanLine state).bodyRemaining = n ↔
      (ls.filterMap framingLine).getLast? = some (some n) := by
  have hscan := scan_framed ls state
  revert hscan
  rcases (ls.filterMap framingLine).getLast? with - | - | k <;> intro hscan
  · exact iff_of_false (fun h => hs (hscan.1.symm.trans h.1)) nofun
  · exact iff_of_false (fun h => by cases hscan.symm.trans h.1) nofun
  · rw [hscan.1, hscan.2, and_iff_right rfl, some.injEq, some.injEq]

theorem getLast?_framing {x : Option ℕ} (hex : ∃ l ∈ ls, framingLine l = some x)
    (hall : ∀ l ∈ ls, ∀ y ∈ framingLine l, y = x) : (ls.filterMap framingLine).getLast? = some x := by
  obtain ⟨l, hl, hx⟩ := hex
  have hne := ne_nil_of_mem (mem_filterMap.2 ⟨l, hl, hx⟩)
  obtain ⟨k, hk, hky⟩ := mem_filterMap.1 (List.getLast_mem hne)
  rw [List.getLast?_eq_some_getLast hne, hall k hk _ hky]

/-! ## Fields and lines -/

theorem lineField_bind_iff :
    ((lineField line).bind fun nv => if nv.1 = name then some nv.2 else none) = some v ↔
      lineField line = some (name, v) := by
  rw [bind_eq_some_iff]
  constructor
  · rintro ⟨⟨n, w⟩, hf, hif⟩
    split_ifs at hif with hn
    simp only [some.injEq] at hif
    subst hn hif
    exact hf
  · intro hf
    exact ⟨(name, v), hf, by simp⟩

theorem mem_values {h : ResponseHead} :
    v ∈ h.values name ↔ ∃ l ∈ h.lines, lineField l = some (name, v) := by
  simp only [values, mem_filterMap, lineField_bind_iff]

theorem asciiCaseEqual_str {a : Bytes} (ha : lowerCopy a = a) : asciiCaseEqual name a = true ↔ lowerCopy name = a := by
  rw [asciiCaseEqual_iff, ha]

/-- the value begins with this number, which fits 64 bits -/
def StartsWithLength (v : Bytes) (n : ℕ) : Prop :=
  v.takeWhile isDigit ≠ [] ∧ decimal (v.takeWhile isDigit) = n ∧ n < 2 ^ 64

theorem fromChars_blanks {r : Bytes} (hr : ∀ b ∈ r, isBlank b = true) :
    (fromChars (2 ^ 64) (v ++ r)).map Prod.fst = some n ↔ StartsWithLength v n := by
  have hdigits : r.takeWhile isDigit = [] := by
    cases r with
    | nil => rfl
    | cons b r =>
      refine takeWhile_cons_of_neg fun hd => ?_
      have hb := hr b mem_cons_self
      rw [isBlank, isDigit_ne hd (by decide), isDigit_ne hd (by decide)] at hb
      cases hb
  have htake : (v ++ r).takeWhile isDigit = v.takeWhile isDigit := by
    rw [takeWhile_append, hdigits, append_nil]
    split_ifs with hlen
    · exact ((List.takeWhile_prefix _).eq_of_length hlen).symm
    · rfl
  simp only [fromChars, htake, StartsWithLength]
  split_ifs with hnil hlt
  · simp [hnil]
  · simp only [map_some, some.injEq, ne_eq, hnil, not_false_eq_true, true_and]
    exact ⟨fun h => ⟨h, h ▸ hlt⟩, And.left⟩
  · simp only [map_none, reduceCtorEq, false_iff]
    rintro ⟨-, rfl, h⟩
    exact hlt h

theorem lengthLine_iff :
    lengthLine line = some n ↔ ∃ v, lineField line = some (str "content-length", v) ∧ StartsWithLength v n := by
  unfold lengthLine lineField
  cases cutAt colon line with
  | none => simp
  | some nv =>
    obtain ⟨name, value⟩ := nv
    obtain ⟨r, hr, hblank⟩ := dropWhile_eq_trimBy_append isBlank value
    have hname : asciiCaseEqual name (str "content-length") = true ↔ _ := asciiCaseEqual_str (by decide)
    simp only [hname, hr, map_some, some.injEq, Prod.mk.injEq]
    split_ifs with hcase
    · rw [fromChars_blanks hblank]
      simp [hcase, trimBlanks]
    · simp [hcase]

theorem chunkedLine_iff : chunkedLine line = true ↔
    ∃ v, lineField line = some (str "transfer-encoding", v) ∧ str "chunked" <:+: lowerCopy v := by
  unfold chunkedLine lineField
  cases cutAt colon line with
  | none => simp
  | some nv =>
    obtain ⟨name, value⟩ := nv
    obtain ⟨r, hr, hblank⟩ := dropWhile_eq_trimBy_append isBlank value
    have hname : asciiCaseEqual name (str "transfer-encoding") = true ↔ _ := asciiCaseEqual_str (by decide)
    have hinfix : str "chunked" <:+: lowerCopy (trimBy isBlank value ++ r) ↔
        str "chunked" <:+: lowerCopy (trimBlanks value) := by
      rw [lowerCopy, map_append]
      refine ⟨isInfix_of_append (by decide) fun x hx hmem => ?_, fun h => h.trans (List.prefix_append _ _).isInfix⟩
      obtain ⟨b, hb, rfl⟩ := mem_map.1 hmem
      have hletters : ∀ x ∈ str "chunked", isBlank x = false := by decide
      have hlower : lowerByte b = b := by
        rcases Bool.or_eq_true_iff.1 (hblank b hb) with h | h <;> rw [eq_of_beq h] <;> decide
      rw [hlower] at hx
      exact Bool.false_ne_true ((hletters b hx).symm.trans (hblank b hb))
    simp only [Bool.and_eq_true, hname, hr, find_isSome_iff (show str "chunked" ≠ [] by decide), map_some,
      some.injEq, Prod.mk.injEq, hinfix]
    constructor
    · rintro ⟨hcase, h⟩
      exact ⟨_, ⟨hcase, rfl⟩, h⟩
    · rintro ⟨_, ⟨hcase, rfl⟩, h⟩
      exact ⟨hcase, h⟩

theorem lengthLine_of_chunked (h : chunkedLine line = true) : lengthLine line = none := by
  obtain ⟨v, hv, -⟩ := chunkedLine_iff.1 h
  refine eq_none_iff_forall_ne_some.2 fun n hn => ?_
  obtain ⟨w, hw, -⟩ := lengthLine_iff.1 hn
  exact absurd (Prod.mk.inj (some.inj (hv.symm.trans hw))).1 (by decide)

theorem framingLine_eq_none : framingLine line = none ↔ lengthLine line = none ∧ chunkedLine line = false := by
  rw [framingLine]
  cases lengthLine line <;> simp

theorem framingLine_eq_length : framingLine line = some (some n) ↔ lengthLine line = some n := by
  rw [framingLine]
  cases lengthLine line <;> simp

theorem framingLine_length_iff : framingLine line = some (some n) ↔
    ∃ v, lineField line = some (str "content-length", v) ∧ StartsWithLength v n :=
  framingLine_eq_length.trans lengthLine_iff

theorem framingLine_chunked_iff : framingLine line = some none ↔
    ∃ v, lineField line = some (str "transfer-encoding", v) ∧ str "chunked" <:+: lowerCopy v := by
  rw [← chunkedLine_iff]
  refine ⟨fun h => ?_, fun h => ?_⟩
  · by_contra hc
    rw [framingLine, if_neg hc] at h
    cases hn : lengthLine line <;> simp [hn] at h
  · rw [framingLine, lengthLine_of_chunked h]
    exact if_pos h

theorem closeLine_field (h : closeLine line = true) : ∃ v, lineField line = some (str "connection", v) := by
  unfold closeLine at h
  cases hcut : cutAt colon line with
  | none =>
    rw [hcut] at h
    cases h
  | some nv =>
    rw [hcut] at h
    have hname := (asciiCaseEqual_str (by decide)).1 (Bool.and_eq_true_iff.1 h).1
    exact ⟨_, by rw [lineField, hcut, map_some, hname]⟩

theorem scanLine_keepalive {state : ResponseState} (h : (scanLine state line).upstreamKeepalive = true) :
    state.upstreamKeepalive = true ∧ closeLine line = false := by
  rw [scanLine_eq] at h
  by_cases hclose : closeLine line = true
  · obtain ⟨v, hv⟩ := closeLine_field hclose
    have hother : ∀ {name w}, name ≠ str "connection" → lineField line ≠ some (name, w) := by
      intro name w hne hw
      exact hne (Prod.mk.inj (some.inj (hw.symm.trans hv))).1
    have hnone : framingLine line = none := by
      refine eq_none_iff_forall_ne_some.2 fun x hx => ?_
      cases x with
      | none =>
        obtain ⟨w, hw, -⟩ := framingLine_chunked_iff.1 hx
        exact hother (by decide) hw
      | some n =>
        obtain ⟨w, hw, -⟩ := framingLine_length_iff.1 hx
        exact hother (by decide) hw
    simp [hnone, hclose] at h
  · refine ⟨?_, Bool.eq_false_iff.2 hclose⟩
    split at h
    · exact h
    · exact h
    · rwa [if_neg hclose] at h

/-- an upstream that is kept has no line in which the scan saw that it closes -/
theorem scan_keepalive {state : ResponseState} (h : (ls.foldl scanLine state).upstreamKeepalive = true) :
    state.upstreamKeepalive = true ∧ ∀ l ∈ ls, closeLine l = false := by
  induction ls generalizing state with
  | nil => exact ⟨h, forall_mem_nil _⟩
  | cons l ls ih =>
    obtain ⟨hstate, hls⟩ := ih h
    obtain ⟨hstate, hl⟩ := scanLine_keepalive hstate
    exact ⟨hstate, forall_mem_cons.2 ⟨hl, hls⟩⟩

theorem startsWithLength_plain (hv : PlainDecimal v n) {k : ℕ} : StartsWithLength v k ↔ n = k ∧ k < 2 ^ 64 := by
  obtain ⟨hne, hdigits, rfl⟩ := hv
  simp [StartsWithLength, takeWhile_eq_self_iff.2 hdigits, hne]

theorem chunked_isInfix (hv : str "chunked" ∈ elements v) : str "chunked" <:+: lowerCopy v := by
  obtain ⟨e, he, hlow⟩ := mem_map.1 hv
  rw [← hlow]
  exact ((trimBy_isInfix _ _).trans (isInfix_of_mem_pieces he)).map lowerByte

/-! ## The state of a head -/

section HeadState

variable {h : ResponseHead} {m : Method}

theorem noBody_iff : noBody m h.status = true ↔ h.Bodyless m ∨ h.Interim := by
  unfold noBody ResponseHead.Bodyless ResponseHead.Interim
  rw [decide_eq_true_eq]
  by_cases hm : m = .head
  · simp [hm]
  · simp only [hm, false_or]
    omega

theorem headState_noBody (hb : noBody m h.status = true) :
    headState h m = { framing := .noBody, bodyRemaining := 0, upstreamKeepalive := true, status := h.status } := by
  rw [headState, if_pos hb]

theorem headState_status : (headState h m).status = h.status := by
  unfold headState
  split_ifs
  · rfl
  · exact scan_status _ _

theorem headState_scan (hb : noBody m h.status = false) :
    headState h m = h.lines.foldl scanLine { status := h.status } := by
  rw [headState, hb]
  rfl

/-- **Content-Length framing.** Equal plain lengths and no transfer coding: the scan has that length, or takes the
response for one that ends with its connection when the length does not fit 64 bits. -/
theorem headState_length (hb : noBody m h.status = false) (hte : h.values (str "transfer-encoding") = [])
    (hne : h.values (str "content-length") ≠ []) (hcl : ∀ v ∈ h.values (str "content-length"), PlainDecimal v n) :
    if n < 2 ^ 64 then (headState h m).framing = .contentLength ∧ (headState h m).bodyRemaining = n
    else (headState h m).framing = .closeDelimited := by
  rw [headState_scan hb]
  have hline : ∀ l ∈ h.lines, ∀ x ∈ framingLine l, n < 2 ^ 64 ∧ x = some n := by
    intro l hl x hx
    cases x with
    | none =>
      obtain ⟨v, hv, -⟩ := framingLine_chunked_iff.1 hx
      exact absurd (mem_values.2 ⟨l, hl, hv⟩) (hte ▸ not_mem_nil)
    | some k =>
      obtain ⟨v, hv, hstarts⟩ := framingLine_length_iff.1 hx
      obtain ⟨rfl, hlt⟩ := (startsWithLength_plain (hcl v (mem_values.2 ⟨l, hl, hv⟩))).1 hstarts
      exact ⟨hlt, rfl⟩
  split_ifs with hn
  · refine (scan_length_iff _ _ (by simp)).2 (getLast?_framing ?_ fun l hl x hx => (hline l hl x hx).2)
    obtain ⟨v, hv⟩ := exists_mem_of_ne_nil _ hne
    obtain ⟨l, hl, hf⟩ := mem_values.1 hv
    exact ⟨l, hl, framingLine_length_iff.2 ⟨v, hf, (startsWithLength_plain (hcl v hv)).2 ⟨rfl, hn⟩⟩⟩
  · have hscan := scan_framed h.lines { status := h.status }
    rw [filterMap_eq_nil_iff.2 fun l hl => eq_none_iff_forall_ne_some.2 fun x hx => hn (hline l hl x hx).1] at hscan
    exact hscan.1

theorem exists_last_coding (hc : h.Chunked) : ∃ pre l post, h.lines = pre ++ l :: post ∧ chunkedLine l = true ∧
    ∀ k ∈ post, chunkedLine k = false := by
  obtain ⟨v, hlast, hv⟩ := hc
  obtain ⟨pre, l, post, hlines, hl, hpost⟩ := filterMap_getLast_iff.1 hlast
  have hcoding := chunkedLine_iff.2 ⟨v, lineField_bind_iff.1 hl, chunked_isInfix (mem_of_getLast? hv)⟩
  refine ⟨pre, l, post, hlines, hcoding, fun k hk => Bool.eq_false_iff.2 fun hchunked => ?_⟩
  obtain ⟨w, hw, -⟩ := chunkedLine_iff.1 hchunked
  exact absurd ((hpost k hk).symm.trans (lineField_bind_iff.2 hw)) (by simp)

/-- **Chunked framing.** A chunked response without Content-Length is taken for one. -/
theorem headState_chunked (hb : noBody m h.status = false) (hc : h.Chunked)
    (hcl : h.values (str "content-length") = []) : (headState h m).framing = .chunked := by
  obtain ⟨v, hlast, hv⟩ := hc
  obtain ⟨l, hl, hfield⟩ := mem_values.1 (mem_of_getLast? hlast)
  have hline := framingLine_chunked_iff.2 ⟨v, hfield, chunked_isInfix (mem_of_getLast? hv)⟩
  rw [headState_scan hb]
  refine scan_chunked (getLast?_framing ⟨l, hl, hline⟩ fun k hk x hx => ?_)
  cases x with
  | none => rfl
  | some n =>
    obtain ⟨w, hw, -⟩ := framingLine_length_iff.1 hx
    exact absurd (mem_values.2 ⟨k, hk, hw⟩) (hcl ▸ not_mem_nil)

end HeadState

/-! ## The order of the lines -/

theorem scanLine_comm {x y : Bytes} (h : ∀ a ∈ framingLine x, ∀ b ∈ framingLine y, a = b) (state : ResponseState) :
    scanLine (scanLine state x) y = scanLine (scanLine state y) x := by
  simp only [scanLine_eq]
  rcases hx : framingLine x with - | a <;> rcases hy : framingLine y with - | b
  · dsimp only
    split_ifs <;> rfl
  · rcases b <;> dsimp only <;> split_ifs <;> rfl
  · rcases a <;> dsimp only <;> split_ifs <;> rfl
  · cases h a hx b hy
    cases a <;> rfl

/-- two values of Content-Length say the same -/
def SameLength (v v' : Bytes) : Prop := v = v' ∨ ∃ n, PlainDecimal v n ∧ PlainDecimal v' n

/-- No value of Content-Length begins with a length; or no value of Transfer-Encoding holds `chunked` in it, and all
values of Content-Length say the same. -/
def OneFraming (h : ResponseHead) : Prop :=
  (∀ v ∈ h.values (str "content-length"), ∀ n, ¬StartsWithLength v n) ∨
    (∀ v ∈ h.values (str "transfer-encoding"), ¬str "chunked" <:+: lowerCopy v) ∧
      ∀ v ∈ h.values (str "content-length"), ∀ v' ∈ h.values (str "content-length"), SameLength v v'

/-- what the order of the lines must not change, and which line must not win -/
structure OrderFree (h : ResponseHead) (m : Method) : Prop where
  perm : ∀ h' : ResponseHead, h'.statusLine = h.statusLine → h'.lines.Perm h.lines →
    (rewriteHeaders h'.bytes m).1 = (rewriteHeaders h.bytes m).1
  chunked : noBody m h.status = false → (∃ v ∈ h.values (str "transfer-encoding"), str "chunked" ∈ elements v) →
    (rewriteHeaders h.bytes m).1.framing = .chunked
  lengths : ∀ v ∈ h.values (str "content-length"), ∀ v' ∈ h.values (str "content-length"), ¬SameLength v v' →
    (rewriteHeaders h.bytes m).1.framing ≠ .contentLength

section Order

variable {h h' : ResponseHead} {m : Method}

theorem status_eq (hstatus : h'.statusLine = h.statusLine) : h'.status = h.status := by
  have hread := (firstLineStatus_statusLine h').symm.trans (hstatus ▸ firstLineStatus_statusLine h)
  exact_mod_cast hread

/-- any line may stand last -/
theorem exists_last (hl : l ∈ h.lines) :
    ∃ h' : ResponseHead, h'.statusLine = h.statusLine ∧ h'.lines.Perm h.lines ∧ ∃ pre, h'.lines = pre ++ [l] := by
  have hperm : (h.lines.erase l ++ [l]).Perm h.lines := (perm_append_comm).trans (perm_cons_erase hl).symm
  exact ⟨{ h with lines := h.lines.erase l ++ [l], lines_ok := fun k hk => h.lines_ok k (hperm.mem_iff.1 hk) }, rfl,
    hperm,
    _, rfl⟩

/-- the state is that in which the line stands last -/
theorem OrderFree.last (hfree : OrderFree h m) (hbody : noBody m h.status = false) (hl : l ∈ h.lines) :
    ∃ pre, headState h m = (pre ++ [l]).foldl scanLine { status := h.status } := by
  obtain ⟨h', hstatus, hperm, pre, hpre⟩ := exists_last hl
  have hstate := hfree.perm h' hstatus hperm
  have hcode := status_eq hstatus
  rw [rewriteHeaders_bytes, rewriteHeaders_bytes, headState_scan (hcode ▸ hbody), hpre, hcode] at hstate
  exact ⟨pre, hstate.symm⟩

theorem OrderFree.oneFraming (hfree : OrderFree h m) (hbody : noBody m h.status = false) : OneFraming h := by
  by_cases hlength : ∃ l ∈ h.lines, ∃ n, framingLine l = some (some n)
  · obtain ⟨l, hl, n, hn⟩ := hlength
    obtain ⟨pre, hstate⟩ := hfree.last hbody hl
    have hframing : (headState h m).framing = .contentLength := by
      rw [hstate]
      exact ((scan_length_iff _ n (by simp)).2 (by simp [hn])).1
    refine .inr ⟨fun v hv hinfix => ?_, fun v hv v' hv' => ?_⟩
    · obtain ⟨k, hk, hfield⟩ := mem_values.1 hv
      have hc := framingLine_chunked_iff.2 ⟨v, hfield, hinfix⟩
      obtain ⟨pre', hstate'⟩ := hfree.last hbody hk
      rw [hstate', scan_chunked (by simp [hc])] at hframing
      cases hframing
    · by_contra hdiffer
      refine hfree.lengths v hv v' hv' hdiffer ?_
      rw [rewriteHeaders_bytes]
      exact hframing
  · refine .inl fun v hv n hn => hlength ?_
    obtain ⟨l, hl, hfield⟩ := mem_values.1 hv
    exact ⟨l, hl, n, framingLine_length_iff.2 ⟨v, hfield, hn⟩⟩

theorem SameLength.eq {v' : Bytes} {n' : ℕ} (h : SameLength v v') (hv : StartsWithLength v n)
    (hv' : StartsWithLength v' n') :
    n = n' := by
  rcases h with rfl | ⟨k, hk, hk'⟩
  · exact hv.2.1.symm.trans hv'.2.1
  · exact ((startsWithLength_plain hk).1 hv).1.symm.trans ((startsWithLength_plain hk').1 hv').1

theorem OneFraming.agree (hone : OneFraming h) {l' : Bytes} (hl : l ∈ h.lines) (hl' : l' ∈ h.lines) :
    ∀ x ∈ framingLine l, ∀ y ∈ framingLine l', x = y := by
  intro x hx y hy
  rcases hone with hnone | ⟨hplain, hsame⟩
  · have hchunked : ∀ {k z}, k ∈ h.lines → framingLine k = some z → z = none := by
      rintro k (- | n) hk hz
      · rfl
      · obtain ⟨v, hfield, hv⟩ := framingLine_length_iff.1 hz
        exact absurd hv (hnone v (mem_values.2 ⟨k, hk, hfield⟩) n)
    rw [hchunked hl hx, hchunked hl' hy]
  · have hlength : ∀ {k z}, k ∈ h.lines → framingLine k = some z →
        ∃ n, z = some n ∧ ∃ v ∈ h.values (str "content-length"), StartsWithLength v n := by
      rintro k (- | n) hk hz
      · obtain ⟨v, hfield, hinfix⟩ := framingLine_chunked_iff.1 hz
        exact absurd hinfix (hplain v (mem_values.2 ⟨k, hk, hfield⟩))
      · obtain ⟨v, hfield, hv⟩ := framingLine_length_iff.1 hz
        exact ⟨n, rfl, v, mem_values.2 ⟨k, hk, hfield⟩, hv⟩
    obtain ⟨n, rfl, v, hv, hstarts⟩ := hlength hl hx
    obtain ⟨n', rfl, v', hv', hstarts'⟩ := hlength hl' hy
    rw [(hsame v hv v' hv').eq hstarts hstarts']

theorem OneFraming.orderFree (hone : OneFraming h) (hbody : noBody m h.status = false) : OrderFree h m := by
  refine ⟨fun h' hstatus hperm => ?_, fun _ hchunked => ?_, fun v hv v' hv' hdiffer hframing => ?_⟩
  · have hscan := hperm.foldl_eq'
      (fun x hx y hy state => scanLine_comm (hone.agree (hperm.mem_iff.1 hx) (hperm.mem_iff.1 hy)) state)
      { status := h.status }
    simp only [rewriteHeaders_bytes, headState, status_eq hstatus, hscan]
  · obtain ⟨v, hv, hcoding⟩ := hchunked
    obtain ⟨l, hl, hfield⟩ := mem_values.1 hv
    have hline := framingLine_chunked_iff.2 ⟨v, hfield, chunked_isInfix hcoding⟩
    rw [rewriteHeaders_bytes, headState_scan hbody]
    exact scan_chunked (getLast?_framing ⟨l, hl, hline⟩ fun k hk x hx => hone.agree hk hl x hx _ hline)
  · rw [rewriteHeaders_bytes, headState_scan hbody] at hframing
    have hlast := (scan_length_iff h.lines _ (by simp)).1 ⟨hframing, rfl⟩
    obtain ⟨l, hl, hn⟩ := mem_filterMap.1 (mem_of_getLast? hlast)
    obtain ⟨w, hfield, hw⟩ := framingLine_length_iff.1 hn
    rcases hone with hnone | ⟨-, hsame⟩
    · exact hnone w (mem_values.2 ⟨l, hl, hfield⟩) _ hw
    · exact hdiffer (hsame v hv v' hv')

end Order

/-- **The order of the lines** makes no difference, a chunked coding wins and two different lengths give none, exactly
if the response has no body or its lines give one framing. -/
theorem framing_order_free (h : ResponseHead) (m : Method) :
    OrderFree h m ↔ (h.Bodyless m ∨ h.Interim) ∨ OneFraming h := by
  rw [← noBody_iff]
  by_cases hbody : noBody m h.status = true
  · refine iff_of_true ⟨fun h' hstatus _ => ?_, fun hfalse => ?_, fun v _ v' _ _ => ?_⟩ (.inl hbody)
    · have hcode := status_eq hstatus
      rw [rewriteHeaders_bytes, rewriteHeaders_bytes, headState_noBody hbody, headState_noBody (hcode ▸ hbody), hcode]
    · cases hbody.symm.trans hfalse
    · rw [rewriteHeaders_bytes, headState_noBody hbody]
      intro hframing
      cases hframing
  · rw [or_iff_right hbody]
    exact ⟨fun hfree => hfree.oneFraming (Bool.eq_false_iff.2 hbody), fun hone =>
      hone.orderFree (Bool.eq_false_iff.2 hbody)⟩

def okHead (lines : List Bytes) (h : ∀ l ∈ lines, l ≠ [] ∧ Clean l) : ResponseHead where
  version := str "HTTP/1.1"
  code := str "200"
  reason := str " OK"
  lines := lines
  version_ok := http11_ok
  code_ok := by decide
  reason_ok := by decide
  lines_ok := h

/-- the last line wins: Transfer-Encoding and Content-Length in both orders, and two lengths -/
theorem framing_by_order :
    (rewriteHeaders (okHead [str "Content-Length: 5",
      str "Transfer-Encoding: chunked"] (by decide)).bytes .get).1.framing = .chunked ∧
      (rewriteHeaders (okHead [str "Transfer-Encoding: chunked",
        str "Content-Length: 5"] (by decide)).bytes .get).1.framing =
        .contentLength ∧
      (rewriteHeaders (okHead [str "Content-Length: 5", str "Content-Length: 6"] (by decide)).bytes .get).1 =
        ⟨.contentLength, 6, true, 200⟩ := by
  decide +kernel

end Coropact.Gateway
