/-
Two readings of the head the gateway sends upstream: the strict one (CRLF ends a line, names as they stand) and that of
a lenient upstream (a bare LF ends a line too, blanks around a name are ignored).

The parser compares header names as they stand before the colon and cuts lines at CRLF only, so a name padded with
blanks or a bare CR or LF inside a line gets through, and `BuildRequestInto` writes it back unchanged.
-/
import Coropact.Gateway.BuildRequest

namespace Coropact.Gateway

open Coropact.Http Coropact.Text List

/-! ## The two readings -/

/-- the lines of a head up to the first empty one -/
def strictHead (s : Bytes) : List Bytes := (splitPair CR LF s).takeWhile (· ≠ [])

/-- the same lines for a reader that takes a bare LF as line end -/
def lenientHead (s : Bytes) : List Bytes := ((terminated LF s).map dropCR).takeWhile (· ≠ [])

/-- the header fields behind the request line -/
def strictFields (s : Bytes) : List (Bytes × Bytes) := (strictHead s).tail.filterMap (cutAt colon)

def trimName (fv : Bytes × Bytes) : Bytes × Bytes := (trimBlanks fv.1, fv.2)

def lenientFields (s : Bytes) : List (Bytes × Bytes) := ((lenientHead s).tail.filterMap (cutAt colon)).map trimName

/-- both readers see the same lines and are announced the same body length -/
def ReadsAlike (s : Bytes) : Prop :=
  lenientHead s = strictHead s ∧ ∀ n, Announce (lenientFields s) n ↔ Announce (strictFields s) n

/-- a name that is content-length or transfer-encoding once blanks around it are removed, in any case -/
def looksLike (name k : Bytes) : Bool := lowerCopy (trimBlanks k) == name

/-- no framing header slips through: not under a padded name, not on a line of its own for a lenient reader -/
structure FramingSafe (req : HttpRequest) : Prop where
  transferEncoding : ∀ kv ∈ req.headers, looksLike (str "transfer-encoding") kv.1 = false
  contentLength : ∀ kv ∈ req.headers, ∀ gv ∈ req.headers, looksLike (str "content-length") kv.1 = true →
    looksLike (str "content-length") gv.1 = true → kv.1 = gv.1
  headers : ∀ kv ∈ req.headers, Clean kv.1 ∧ Clean kv.2
  path : Clean req.path
  query : Clean req.query
  alike : ∀ iter peer forwarded, iter.Perm req.headers → peer.Clean → forwarded.Clean →
    ReadsAlike (buildRequestInto req iter peer forwarded)

/-- what a request text must keep to: no transfer-encoding under a padded name; one name at most that is content-length
up to blanks, and if it is padded it announces zero; no bare CR or LF in the target or in a line whose value is kept -/
structure Unambiguous (t : RequestText) : Prop where
  transferEncoding : ∀ fv ∈ t.fields, looksLike (str "transfer-encoding") fv.1 = false
  contentLength : ∀ fv ∈ t.fields, ∀ gv ∈ t.fields, looksLike (str "content-length") fv.1 = true →
    looksLike (str "content-length") gv.1 = true → lowerCopy fv.1 = lowerCopy gv.1
  padded : ∀ fv, IsFirst t.fields fv → looksLike (str "content-length") fv.1 = true → isContentLength fv = false →
    fromChars (2 ^ 64) (trim (fieldValue fv)) = some (0, [])
  target : Clean t.uri
  lines : ∀ fv, IsFirst t.fields fv → Clean fv.1 ∧ Clean fv.2

/-! ## Clean lines read alike -/

theorem strictHead_lines {ls : List Bytes} (h : ∀ l ∈ ls, Clean l ∧ l ≠ []) (rest : Bytes) :
    strictHead ((ls.map (· ++ CRLF)).flatten ++ CR :: LF :: rest) = ls := by
  induction ls with
  | nil =>
    have := splitPair_append (a := CR) (b := LF) (by decide) (pairFree_nil CR LF) rest
    rw [nil_append] at this
    simp [strictHead, this]
  | cons l ls ih =>
    obtain ⟨⟨hcr, -⟩, hne⟩ := h l (by simp)
    rw [strictHead, flatten_lines_cons, splitPair_append (by decide) (pairFree_of_not_mem (.inl hcr)),
      takeWhile_cons_of_pos (by simpa using hne)]
    congr 1
    exact ih fun m hm => h m (mem_cons_of_mem _ hm)

theorem lenientHead_lines {ls : List Bytes} (h : ∀ l ∈ ls, Clean l ∧ l ≠ []) (rest : Bytes) :
    lenientHead ((ls.map (· ++ CRLF)).flatten ++ CR :: LF :: rest) = ls := by
  induction ls with
  | nil =>
    have := terminated_append (c := LF) (l := [CR]) (by decide) rest
    rw [singleton_append] at this
    simp [lenientHead, this, dropCR]
  | cons l ls ih =>
    obtain ⟨⟨-, hlf⟩, hne⟩ := h l (by simp)
    have hl : LF ∉ l ++ [CR] := by
      simp only [mem_append, mem_singleton, not_or]
      exact ⟨hlf, by decide⟩
    rw [lenientHead, flatten_lines_cons, append_cons, terminated_append hl, map_cons, dropCR_append,
      takeWhile_cons_of_pos (by simpa using hne)]
    congr 1
    exact ih fun m hm => h m (mem_cons_of_mem _ hm)

theorem filterMap_cutAt_fieldLine {fields : List (Bytes × Bytes)} (h : ∀ fv ∈ fields, colon ∉ fv.1) :
    (fields.map fieldLine).filterMap (cutAt colon) = fields := by
  induction fields with
  | nil => rfl
  | cons fv fields ih =>
    rw [map_cons, filterMap_cons, fieldLine, cutAt_append (h fv (by simp)),
      ih fun gv hgv => h gv (mem_cons_of_mem _ hgv)]

/-! ## The forwarded head -/

section Forwarded

variable {t : RequestText} {iter : List (Bytes × Bytes)} {peer : UpstreamPeerConfig}
  {forwarded : ForwardedHeaderContext} (hiter : iter.Perm t.request.headers) (hpeer : peer.Clean)
  (hfwd : forwarded.Clean)

theorem buildRequestInto_lines (req : HttpRequest) (iter : List (Bytes × Bytes)) (peer : UpstreamPeerConfig)
    (forwarded : ForwardedHeaderContext) :
    buildRequestInto req iter peer forwarded =
      (((methodToString req.method ++ SP :: (forwardUri req ++ SP :: versionToString .http11)) ::
        ((sentHeaders req iter peer forwarded).map spaced).map fieldLine).map (· ++ CRLF)).flatten ++
        CR :: LF :: req.body := by
  have hne : ((sentHeaders req iter peer forwarded).map spaced).map fieldLine ≠ [] := by
    simp [sentHeaders_ne_nil]
  rw [buildRequestInto_eq, map_cons, flatten_cons, CRLF, flatten_map_append_pair CR LF hne]
  simp

theorem clean_forwardUri {req : HttpRequest} (hpath : Clean req.path) (hquery : Clean req.query) :
    Clean (forwardUri req) := by
  have h : Clean (forwardPath req) := by
    unfold forwardPath
    split_ifs
    · decide
    · exact hpath
  unfold forwardUri
  split_ifs
  · rw [append_nil]
    exact h
  · exact gluable_clean.glue _ _ _ (by decide) (by decide) h hquery

include hiter hpeer hfwd

theorem forwarded_lines_clean (hheaders : ∀ kv ∈ t.request.headers, Clean kv.1 ∧ Clean kv.2)
    (hpath : Clean t.request.path) (hquery : Clean t.request.query) :
    ∀ l ∈ (methodToString t.request.method ++ SP :: (forwardUri t.request ++ SP :: versionToString .http11)) ::
      ((sentHeaders t.request iter peer forwarded).map spaced).map fieldLine, Clean l ∧ l ≠ [] := by
  intro l hl
  rcases mem_cons.1 hl with rfl | hl
  · refine ⟨?_, by simp⟩
    exact gluable_clean.glue _ _ _ (by decide) (by decide) (by cases t.request.method <;> decide)
      (gluable_clean.glue _ _ _ (by decide) (by decide) (clean_forwardUri hpath hquery) (by decide))
  · obtain ⟨fv, hfv, rfl⟩ := mem_map.1 hl
    obtain ⟨kv, hkv, rfl⟩ := mem_map.1 hfv
    refine ⟨?_, HttpParser.fieldLine_ne_nil _⟩
    have hhost : Clean t.request.host := by
      rcases t.request_cached.host with h | h
      · rw [h]
        decide
      · exact (hheaders _ h).2
    obtain ⟨hname, hval⟩ := sentHeaders_mem gluable_clean (fun kv hkv => (hheaders kv (hiter.subset hkv)).2) hhost
      hpeer hfwd hkv
    have hk : Clean kv.1 := by
      rcases hname with ⟨hmem, -⟩ | hadded
      · exact (hheaders kv (hiter.subset hmem)).1
      · have hall : ∀ k ∈ addedNames, Clean k := by decide
        exact hall kv.1 hadded
    exact gluable_clean.glue _ _ _ (by decide) (by decide) hk
      (gluable_clean.glue [] SP _ (by decide) (by decide) (by decide) hval)

theorem readings_of_clean (hheaders : ∀ kv ∈ t.request.headers, Clean kv.1 ∧ Clean kv.2)
    (hpath : Clean t.request.path) (hquery : Clean t.request.query) :
    lenientHead (buildRequestInto t.request iter peer forwarded) =
        strictHead (buildRequestInto t.request iter peer forwarded) ∧
      strictFields (buildRequestInto t.request iter peer forwarded) =
        (sentHeaders t.request iter peer forwarded).map spaced ∧
      lenientFields (buildRequestInto t.request iter peer forwarded) =
        ((sentHeaders t.request iter peer forwarded).map spaced).map trimName := by
  have hclean := forwarded_lines_clean hiter hpeer hfwd hheaders hpath hquery
  have hcolon : ∀ fv ∈ (sentHeaders t.request iter peer forwarded).map spaced, colon ∉ fv.1 :=
    fun fv hfv => (sentHeaders_ok hiter hpeer hfwd fv hfv).2.1
  rw [strictFields, lenientFields, buildRequestInto_lines, strictHead_lines hclean, lenientHead_lines hclean]
  simp only [tail_cons, filterMap_cutAt_fieldLine hcolon, and_self]

omit hiter in
theorem lenient_contentLength :
    (((sentHeaders t.request iter peer forwarded).map spaced).map trimName).filter isContentLength =
      (((iter.filter fun kv => Passes t.request.connection kv.1).filter fun kv =>
        looksLike (str "content-length") kv.1).map spaced).map trimName := by
  have hadd : ∀ k ∈ addedNames, looksLike (str "content-length") k = false := by decide
  rw [filter_map, filter_map, ← sentHeaders_filter (looksLike (str "content-length")) hadd hpeer hfwd]
  rfl

end Forwarded

/-- a name that is content-length up to blanks, but not content-length, is never filtered out: the filters compare names
as they stand, and the tokens of Connection have no blanks around them -/
theorem passes_of_padded {k connection : Bytes} (hlow : lowerCopy k = k)
    (hlooks : looksLike (str "content-length") k = true) (hne : k ≠ str "content-length") : Passes connection k := by
  have hk : lowerCopy (trimBlanks k) = str "content-length" := eq_of_beq hlooks
  have hfixed : ∀ f, lowerCopy (trimBlanks f) ≠ str "content-length" → k ≠ f := by
    rintro f hf rfl
    exact hf hk
  have hhop : ∀ f ∈ hopByHopHeaders, lowerCopy (trimBlanks f) ≠ str "content-length" := by decide
  refine ⟨?_, hfixed _ (by decide), hfixed _ (by decide), hfixed _ (by decide), ?_⟩
  · rintro (h | h | h)
    · exact hfixed _ (by decide) h
    · rw [isHopByHop, contains_iff_mem] at h
      exact hhop k h hk
    · obtain ⟨token, -, htoken⟩ := any_eq_true.1 h
      rw [asciiCaseEqual_iff, hlow, lowerCopy_trimBlanks] at htoken
      have htrim : trimBlanks k = k := by rw [htoken]; exact trimBy_idem _ _
      rw [htrim, hlow] at hk
      exact hne hk
  · rintro (h | h | h | h) <;> exact hfixed _ (by decide) h

theorem announce_padded (name v : Bytes) (hname : lowerCopy name = str "content-length")
    (hv : v.dropWhile (· == SP) = v) :
    (∀ n, Announce [(name, SP :: v)] n ↔ Announce [] n) ↔ fromChars (2 ^ 64) v = some (0, []) := by
  have hcl : isContentLength (name, SP :: v) = true := by simp [isContentLength, hname]
  have hval : fieldValue (name, SP :: v) = v := by
    rw [fieldValue, dropWhile_cons_of_pos (by decide), hv]
  simp only [Announce, filter_cons_of_pos hcl, filter_nil, hval]
  constructor
  · intro h
    exact (h 0).2 rfl
  · intro h n
    rw [h, Option.some.injEq, Prod.mk.injEq, and_iff_left rfl]
    exact eq_comm

/-- the headers a lenient reader takes for content lengths, and among them those that are one for a strict reader -/
def lookalikes (connection : Bytes) (iter : List (Bytes × Bytes)) : List (Bytes × Bytes) :=
  (iter.filter fun kv => looksLike (str "content-length") kv.1).filter fun kv => Passes connection kv.1

theorem lookalikes_singleton {connection : Bytes} {kv : Bytes × Bytes}
    (h : looksLike (str "content-length") kv.1 = true) :
    lookalikes connection [kv] = [kv].filter fun kv => Passes connection kv.1 := by
  rw [lookalikes, filter_cons, if_pos h, filter_nil]

theorem filter_contentLength_eq (connection : Bytes) (iter : List (Bytes × Bytes)) :
    (iter.filter fun kv => Passes connection kv.1).filter (fun kv => kv.1 == str "content-length") =
      (lookalikes connection iter).filter fun kv => kv.1 == str "content-length" := by
  rw [lookalikes, filter_filter, filter_filter, filter_filter]
  refine filter_congr fun kv _ => ?_
  by_cases hk : kv.1 = str "content-length"
  · have : looksLike (str "content-length") kv.1 = true := by rw [hk]; decide
    simp [this]
  · simp [hk]

theorem announce_alike_lookalikes {t : RequestText} {iter : List (Bytes × Bytes)} {peer : UpstreamPeerConfig}
    {forwarded : ForwardedHeaderContext} (hiter : iter.Perm t.request.headers) (hpeer : peer.Clean)
    (hfwd : forwarded.Clean) (n : ℕ) :
    (Announce (((sentHeaders t.request iter peer forwarded).map spaced).map trimName) n ↔
        Announce ((sentHeaders t.request iter peer forwarded).map spaced) n) ↔
      (Announce (((lookalikes t.request.connection iter).map spaced).map trimName) n ↔
        Announce (((lookalikes t.request.connection iter).filter fun kv => kv.1 == str "content-length").map spaced)
          n) := by
  rw [← announce_filter (((sentHeaders t.request iter peer forwarded).map spaced).map trimName),
    ← announce_filter ((sentHeaders t.request iter peer forwarded).map spaced), lenient_contentLength hpeer hfwd,
    sentHeaders_contentLength hiter hpeer hfwd, filter_contentLength_eq, filter_comm]
  rfl

theorem announce_lookalike_iff {connection : Bytes} {kv : Bytes × Bytes} (hlow : lowerCopy kv.1 = kv.1)
    (hlooks : looksLike (str "content-length") kv.1 = true) (hv : kv.2.dropWhile (· == SP) = kv.2) :
    (∀ n, Announce (((lookalikes connection [kv]).map spaced).map trimName) n ↔
        Announce (((lookalikes connection [kv]).filter fun kv => kv.1 == str "content-length").map spaced) n) ↔
      (kv.1 ≠ str "content-length" → fromChars (2 ^ 64) kv.2 = some (0, [])) := by
  obtain ⟨k, v⟩ := kv
  rw [lookalikes_singleton hlooks]
  by_cases hk : k = str "content-length"
  · subst hk
    have htrim : trimName (spaced (str "content-length", v)) = spaced (str "content-length", v) := by
      rw [trimName, spaced]
      congr 1
    simp only [ne_eq, not_true, false_imp_iff, iff_true]
    intro n
    by_cases hpass : Passes connection (str "content-length")
    · simp [hpass, htrim]
    · simp [hpass]
  · have hpass : Passes connection k := passes_of_padded hlow hlooks hk
    have hname : lowerCopy (trimBlanks k) = str "content-length" := eq_of_beq hlooks
    have := announce_padded (trimBlanks k) v hname hv
    simpa [hpass, hk, spaced, trimName] using this

theorem announce_alike_iff {t : RequestText} {iter : List (Bytes × Bytes)} {peer : UpstreamPeerConfig}
    {forwarded : ForwardedHeaderContext} (hiter : iter.Perm t.request.headers) (hpeer : peer.Clean)
    (hfwd : forwarded.Clean)
    (hone : ∀ kv ∈ t.request.headers, ∀ gv ∈ t.request.headers, looksLike (str "content-length") kv.1 = true →
      looksLike (str "content-length") gv.1 = true → kv.1 = gv.1) :
    (∀ n, Announce (((sentHeaders t.request iter peer forwarded).map spaced).map trimName) n ↔
        Announce ((sentHeaders t.request iter peer forwarded).map spaced) n) ↔
      ∀ kv ∈ t.request.headers, looksLike (str "content-length") kv.1 = true → kv.1 ≠ str "content-length" →
        fromChars (2 ^ 64) kv.2 = some (0, []) := by
  simp only [announce_alike_lookalikes hiter hpeer hfwd]
  have hp := hiter.filter fun kv => looksLike (str "content-length") kv.1
  have hmem : ∀ kv, kv ∈ t.request.headers → looksLike (str "content-length") kv.1 = true →
      kv ∈ t.request.headers.filter fun kv => looksLike (str "content-length") kv.1 :=
    fun kv h1 h2 => mem_filter.2 ⟨h1, h2⟩
  rcases hl : t.request.headers.filter fun kv => looksLike (str "content-length") kv.1 with _ | ⟨kv, _ | ⟨kv', l⟩⟩
  · rw [hl] at hp hmem
    have hnil : lookalikes t.request.connection iter = [] := by
      rw [lookalikes, hp.eq_nil]
      rfl
    rw [hnil]
    refine ⟨fun _ kv h1 h2 => absurd (hmem kv h1 h2) (by simp), fun _ n => Iff.rfl⟩
  · have hkv : kv ∈ t.request.headers.filter fun kv => looksLike (str "content-length") kv.1 := by rw [hl]; simp
    obtain ⟨hin, hlooks⟩ := mem_filter.1 hkv
    rw [hl] at hp hmem
    have hsame : lookalikes t.request.connection iter = lookalikes t.request.connection [kv] := by
      rw [lookalikes_singleton hlooks, lookalikes, perm_singleton.1 hp]
    have hv : kv.2.dropWhile (· == SP) = kv.2 := by
      obtain ⟨fv, -, rfl⟩ := t.request_headers_mem hin
      exact dropWhile_trimBy _ _
    rw [hsame, announce_lookalike_iff (t.request_headers_ok hin).2.2.1 hlooks hv]
    constructor
    · intro h gv hgv hlooks'
      rw [mem_singleton.1 (hmem gv hgv hlooks')]
      exact h
    · intro h
      exact h kv hin hlooks
  · -- two entries of one name are not in the map
    have hin : ∀ e ∈ [kv, kv'], e ∈ t.request.headers ∧ looksLike (str "content-length") e.1 = true := by
      intro e he
      have hmem' : e ∈ t.request.headers.filter fun kv => looksLike (str "content-length") kv.1 := by
        rw [hl]
        simp only [mem_cons, not_mem_nil, or_false] at he ⊢
        tauto
      exact mem_filter.1 hmem'
    have hkey := hone kv (hin kv (by simp)).1 kv' (hin kv' (by simp)).1 (hin kv (by simp)).2 (hin kv' (by simp)).2
    have hnodup : ((kv :: kv' :: l).map Prod.fst).Nodup := by
      rw [← hl]
      exact t.request_holds.nodup.sublist (filter_sublist.map _)
    simp [hkey] at hnodup

/-! ## Exactly the unambiguous requests are safe -/

theorem looksLike_lowerCopy (name k : Bytes) : looksLike name (lowerCopy k) = looksLike name k := by
  rw [looksLike, looksLike, ← lowerCopy_trimBlanks, lowerCopy_idem]

theorem clean_lowerCopy_iff (s : Bytes) : Clean (lowerCopy s) ↔ Clean s := by
  rw [Clean, Clean, mem_lowerCopy_iff (by decide), mem_lowerCopy_iff (by decide)]

theorem clean_entry_iff (fv : Bytes × Bytes) : Clean (entry fv).1 ∧ Clean (entry fv).2 ↔ Clean fv.1 ∧ Clean fv.2 := by
  have hval : ∀ b : UInt8, (b == SP) = false → (b ∈ trim (fieldValue fv) ↔ b ∈ fv.2) := by
    intro b hb
    rw [trim, mem_trimBy_iff (p := (· == SP)) hb]
    exact ⟨fun h => (dropWhile_suffix _).subset h, fun h => dropWhile_mem h hb⟩
  rw [entry, clean_lowerCopy_iff, Clean, Clean, Clean, hval CR (by decide), hval LF (by decide)]

theorem clean_uri_iff (uri : Bytes) : Clean uri ↔ Clean (splitUri uri).1 ∧ Clean (splitUri uri).2 := by
  obtain ⟨-, ⟨h1, h2⟩ | h⟩ := splitUri_spec uri
  · rw [h2, ← h1]
    exact ⟨fun h => ⟨h, by decide⟩, fun h => h.1⟩
  · constructor
    · intro hc
      rw [h] at hc
      simp only [Clean, mem_append, mem_cons, not_or] at hc
      exact ⟨⟨hc.1.1, hc.2.1⟩, hc.1.2.2, hc.2.2.2⟩
    · rintro ⟨h1, h2⟩
      rw [h]
      exact gluable_clean.glue _ _ _ (by decide) (by decide) h1 h2

section Exactly

variable (t : RequestText)

theorem forall_headers_iff (P : Bytes × Bytes → Prop) :
    (∀ kv ∈ t.request.headers, P kv) ↔ ∀ fv, IsFirst t.fields fv → P (entry fv) := by
  constructor
  · intro h fv hfv
    exact h _ ((t.request_holds.mem_iff _).2 ⟨fv, hfv, rfl⟩)
  · intro h kv hkv
    obtain ⟨fv, hfv, rfl⟩ := (t.request_holds.mem_iff kv).1 hkv
    exact h fv hfv

/-- a property of names that ignores case holds of the map's names exactly when it holds of all lines' -/
theorem forall_names_iff (P : Bytes → Prop) (hP : ∀ k, P (lowerCopy k) ↔ P k) :
    (∀ kv ∈ t.request.headers, P kv.1) ↔ ∀ fv ∈ t.fields, P fv.1 := by
  rw [forall_headers_iff]
  constructor
  · intro h fv hfv
    obtain ⟨gv, hgv, hlow⟩ := exists_isFirst hfv
    rw [← hP, ← hlow]
    exact h gv hgv
  · intro h fv hfv
    exact (hP _).2 (h fv hfv.mem)

theorem one_contentLength_iff :
    (∀ kv ∈ t.request.headers, ∀ gv ∈ t.request.headers, looksLike (str "content-length") kv.1 = true →
        looksLike (str "content-length") gv.1 = true → kv.1 = gv.1) ↔
      ∀ fv ∈ t.fields, ∀ gv ∈ t.fields, looksLike (str "content-length") fv.1 = true →
        looksLike (str "content-length") gv.1 = true → lowerCopy fv.1 = lowerCopy gv.1 := by
  constructor
  · intro h fv hfv gv hgv hf hg
    obtain ⟨fv', hfv', hflow⟩ := exists_isFirst hfv
    obtain ⟨gv', hgv', hglow⟩ := exists_isFirst hgv
    have := h (entry fv') ((t.request_holds.mem_iff _).2 ⟨fv', hfv', rfl⟩) (entry gv')
      ((t.request_holds.mem_iff _).2 ⟨gv', hgv', rfl⟩) (by rw [entry, hflow, looksLike_lowerCopy]; exact hf)
      (by rw [entry, hglow, looksLike_lowerCopy]; exact hg)
    rw [← hflow, ← hglow]
    exact this
  · intro h kv hkv gv hgv hk hg
    obtain ⟨fv', hfv', rfl⟩ := t.request_headers_mem hkv
    obtain ⟨gv', hgv', rfl⟩ := t.request_headers_mem hgv
    rw [entry, looksLike_lowerCopy] at hk hg
    exact h fv' hfv' gv' hgv' hk hg

theorem framingSafe_request_iff : FramingSafe t.request ↔ Unambiguous t := by
  have hline := t.request_line
  have hte : (∀ kv ∈ t.request.headers, looksLike (str "transfer-encoding") kv.1 = false) ↔
      ∀ fv ∈ t.fields, looksLike (str "transfer-encoding") fv.1 = false :=
    forall_names_iff t (fun k => looksLike (str "transfer-encoding") k = false) fun k => by rw [looksLike_lowerCopy]
  have hclean : (∀ kv ∈ t.request.headers, Clean kv.1 ∧ Clean kv.2) ↔
      ∀ fv, IsFirst t.fields fv → Clean fv.1 ∧ Clean fv.2 := by
    rw [forall_headers_iff]
    simp only [clean_entry_iff]
  have hpadded : (∀ kv ∈ t.request.headers, looksLike (str "content-length") kv.1 = true →
      kv.1 ≠ str "content-length" → fromChars (2 ^ 64) kv.2 = some (0, [])) ↔
      ∀ fv, IsFirst t.fields fv → looksLike (str "content-length") fv.1 = true → isContentLength fv = false →
        fromChars (2 ^ 64) (trim (fieldValue fv)) = some (0, []) := by
    rw [forall_headers_iff]
    simp only [entry, looksLike_lowerCopy, isContentLength, beq_eq_false_iff_ne]
  constructor
  · intro h
    have hctx : ({} : ForwardedHeaderContext).Clean := ⟨by decide, by decide, by decide, by decide⟩
    have hpeer : ({} : UpstreamPeerConfig).Clean := by decide
    have halike := (h.alike t.request.headers {} {} (List.Perm.refl _) hpeer hctx).2
    obtain ⟨-, hs, hl⟩ := readings_of_clean (List.Perm.refl t.request.headers) hpeer hctx h.headers h.path h.query
    rw [hs, hl] at halike
    refine ⟨hte.1 h.transferEncoding, (one_contentLength_iff t).1 h.contentLength, hpadded.1 ?_, ?_, hclean.1 h.headers⟩
    · exact (announce_alike_iff (List.Perm.refl _) hpeer hctx h.contentLength).1 halike
    · rw [clean_uri_iff, ← hline.2.1, ← hline.2.2.1]
      exact ⟨h.path, h.query⟩
  · intro h
    obtain ⟨hpath, hquery⟩ := (clean_uri_iff t.uri).1 h.target
    rw [← hline.2.1] at hpath
    rw [← hline.2.2.1] at hquery
    have hone := (one_contentLength_iff t).2 h.contentLength
    refine ⟨hte.2 h.transferEncoding, hone, hclean.2 h.lines, hpath, hquery, ?_⟩
    intro iter peer forwarded hiter hpeer hfwd
    obtain ⟨hhead, hs, hl⟩ := readings_of_clean hiter hpeer hfwd (hclean.2 h.lines) hpath hquery
    refine ⟨hhead, ?_⟩
    rw [hs, hl]
    exact (announce_alike_iff hiter hpeer hfwd hone).2 (hpadded.2 h.padded)

end Exactly

/-- **No framing header slips through, exactly when the request text is unambiguous.** -/
theorem framingSafe_iff {lim : Limits} {p q : HttpParser} (hp : p.gotAll = false)
    (h : HttpParser.parseAvailable lim p = (.gotAll, q)) :
    ∃ t : RequestText, p.pending = t.bytes ++ q.pending ∧ q.request = t.request ∧
      (FramingSafe q.request ↔ Unambiguous t) := by
  obtain ⟨t, hbytes, hreq⟩ := HttpParser.parseAvailable_gotAll hp h
  exact ⟨t, hbytes, hreq, hreq ▸ framingSafe_request_iff t⟩

def getText : RequestText where
  method := .get
  uri := str "/a"
  version := .http11
  fields := [(str "Host", str " x"), (str "Content-Length", str " 0")]
  body := []
  method_ok := get_ne_invalid
  version_ok := http11_ne_unknown
  uri_ok := by decide
  fields_ok := by decide
  body_ok := by decide +kernel

theorem framingSafe_get :
    (∃ t : RequestText, getText.bytes = t.bytes ++ (parsed getText.bytes).pending ∧
      (parsed getText.bytes).request = t.request ∧ (FramingSafe (parsed getText.bytes).request ↔ Unambiguous t)) ∧
    FramingSafe getText.request := by
  refine ⟨framingSafe_iff rfl (parseAvailable_parsed (by decide +kernel)),
    (framingSafe_request_iff getText).2 ⟨?_, ?_, ?_, ?_, ?_⟩⟩
  · decide
  · decide
  · intro fv hfv
    have hall : ∀ fv ∈ getText.fields, looksLike (str "content-length") fv.1 = true → isContentLength fv = true := by
      decide
    exact fun h1 h2 => absurd ((hall fv hfv.mem h1).symm.trans h2) (by decide)
  · decide
  · intro fv hfv
    have hall : ∀ fv ∈ getText.fields, Clean fv.1 ∧ Clean fv.2 := by decide
    exact hall fv hfv.mem

def paddedNameText : Bytes :=
  str "POST /a HTTP/1.1\r\nTransfer-Encoding : chunked\r\nContent-Length: 3\r\n\r\nabc"

/-- the blank before the colon hides transfer-encoding from the parser -/
theorem framingSafe_padded_name :
    HttpParser.parseAvailable kLimits { pending := paddedNameText } = (.gotAll, parsed paddedNameText) ∧
      ¬ FramingSafe (parsed paddedNameText).request := by
  have hfacts : (HttpParser.parseAvailable kLimits { pending := paddedNameText }).1 = .gotAll ∧
      (str "transfer-encoding ", str "chunked") ∈ (parsed paddedNameText).request.headers := by decide +kernel
  obtain ⟨hstatus, hmem⟩ := hfacts
  refine ⟨parseAvailable_parsed hstatus, fun h => ?_⟩
  exact absurd (h.transferEncoding _ hmem) (by decide)

end Coropact.Gateway
