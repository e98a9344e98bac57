/-
Reads with a timeout on the submission queue (`src/luring/stream.cc`, `ReadSomeForAwaiter`).

A `ReadSomeFor` prepares two entries by two calls of `SubmitOp`: its receive, with IOSQE_IO_LINK, and a link timeout.
The kernel puts the timeout on the receive if it accepts the two next to each other in one submit; whatever entry it
accepts behind a linked one is linked to it. Other coroutines submit operations in between `ReadSomeFor` calls, the loop
flushes and handles completions.
-/
import Coropact.Luring.Loop

namespace Coropact.Luring

open Coropact.Machine List Option

/-! ## Model -/

/-- the receive and the link timeout of a read with a timeout, or any other operation -/
inductive TimedOp where
  | receive (id : ℕ)
  | timeout (id : ℕ)
  | other (id : ℕ)
deriving DecidableEq, Repr

structure TimedReads where
  loop : LUringLoop TimedOp
  started : List ℕ := []
  /-- those whose `await_suspend` returned true -/
  suspended : List ℕ := []
  /-- those whose timeout could not be submitted -/
  timeoutDone : List ℕ := []
deriving DecidableEq, Repr

/-- `ReadSomeForAwaiter::await_suspend`, from the first `SubmitOp` on -/
def TimedReads.readSomeFor (s : TimedReads) (id : ℕ) (answers timeoutAnswers : List SubmitAnswer) : Option TimedReads :=
  match s.loop.submitOp ⟨some (.receive id), true⟩ answers with
  | none => none
  | some (l, .error _) => if timeoutAnswers = [] then some { s with loop := l, started := id :: s.started } else none
  | some (l, .ok _) =>
    match l.submitOp ⟨some (.timeout id), false⟩ timeoutAnswers with
    | none => none
    | some (l, .error _) =>
      some { s with
        loop := l, started := id :: s.started, suspended := id :: s.suspended, timeoutDone := id :: s.timeoutDone }
    | some (l, .ok _) => some { s with loop := l, started := id :: s.started, suspended := id :: s.suspended }

/-- submits no entry of a read with a timeout, and no linked one -/
def LoopEvent.plain : LoopEvent TimedOp → Bool
  | .submitOp (.other _) link _ => !link
  | .submitOp _ _ _ => false
  | _ => true

inductive TimedEvent where
  | readSomeFor (id : ℕ) (answers timeoutAnswers : List SubmitAnswer)
  /-- what else happens on the loop -/
  | loop (e : LoopEvent TimedOp)
deriving DecidableEq, Repr

def timedStep (s : TimedReads) : TimedEvent → Option TimedReads
  | .readSomeFor id answers timeoutAnswers => if id ∈ s.started then none else s.readSomeFor id answers timeoutAnswers
  | .loop e => if e.plain then (loopStep s.loop e).map fun l => { s with loop := l } else none

def timedInit (entries : ℕ) : TimedReads := { loop := loopInit entries }

/-! ## Statements -/

/-- whatever is linked is a receive, and directly behind it stands its own timeout -/
def Attached (sqes : List (Sqe TimedOp)) : Prop :=
  ∀ i x, sqes[i]? = some x → x.link = true →
    ∃ id, x.op = some (.receive id) ∧ sqes[i + 1]? = some ⟨some (.timeout id), false⟩

/-- the entries that are prepared, and those of each submit, are attached; the linked receive of a suspended read is in
one of these lists, with its timeout -/
structure TimeoutsAttached (s : TimedReads) : Prop where
  attached : ∀ sqes ∈ s.loop.prepared :: s.loop.batches, Attached sqes
  reads : ∀ id ∈ s.suspended, ∃ sqes ∈ s.loop.prepared :: s.loop.batches,
    [⟨some (.receive id), true⟩, ⟨some (.timeout id), false⟩] <:+: sqes

def KeepsPairs (prepared : List (Sqe TimedOp)) : List SubmitAnswer → Prop
  | [] => True
  | .error _ :: rest => KeepsPairs prepared rest
  | .submitted n :: rest => (∀ x ∈ (prepared.take n).getLast?, x.link = false) ∧ KeepsPairs (prepared.drop n) rest

instance decidableKeepsPairs (prepared : List (Sqe TimedOp)) : (answers : List SubmitAnswer) →
    Decidable (KeepsPairs prepared answers)
  | [] => isTrue trivial
  | .error _ :: rest => decidableKeepsPairs prepared rest
  | .submitted n :: rest =>
    @instDecidableAnd _ _ inferInstance (decidableKeepsPairs (prepared.drop n) rest)

/-- a `ReadSomeFor` does not start with one free entry, and no submit stops right behind a linked one -/
def TimedReads.PairsKept (s : TimedReads) : TimedEvent → Prop
  | .readSomeFor _ answers _ =>
    KeepsPairs s.loop.prepared answers ∧ s.loop.prepared.length + 1 ≠ s.loop.entries ∧ s.loop.entries ≠ 1
  | .loop e => KeepsPairs s.loop.prepared e.answers

instance (s : TimedReads) (e : TimedEvent) : Decidable (s.PairsKept e) :=
  match e with
  | .readSomeFor _ _ _ => instDecidableAnd
  | .loop _ => decidableKeepsPairs _ _

/-! ## Attached lists -/

section Lists

variable {xs ys : List (Sqe TimedOp)}

theorem Attached.append (hx : Attached xs) (hy : Attached ys) : Attached (xs ++ ys) := by
  intro i x hget hlink
  rcases Nat.lt_or_ge i xs.length with hlt | hge
  · rw [List.getElem?_append_left hlt] at hget
    obtain ⟨id, hop, hnext⟩ := hx i x hget hlink
    refine ⟨id, hop, ?_⟩
    rw [List.getElem?_append_left (List.getElem?_eq_some_iff.1 hnext).1, hnext]
  · rw [List.getElem?_append_right hge] at hget
    obtain ⟨id, hop, hnext⟩ := hy _ x hget hlink
    refine ⟨id, hop, ?_⟩
    rw [List.getElem?_append_right (by omega), ← hnext]
    congr 1
    omega

theorem Attached.drop (hx : Attached xs) (n : ℕ) : Attached (xs.drop n) := by
  intro i x hget hlink
  rw [List.getElem?_drop] at hget
  obtain ⟨id, hop, hnext⟩ := hx _ x hget hlink
  exact ⟨id, hop, by rw [List.getElem?_drop, ← hnext, Nat.add_assoc]⟩

theorem Attached.take (hx : Attached xs) {n : ℕ} (hlast : ∀ x ∈ (xs.take n).getLast?, x.link = false) :
    Attached (xs.take n) := by
  intro i x hget hlink
  have hi : i < n ∧ i < xs.length := by
    have := (List.getElem?_eq_some_iff.1 hget).1
    rw [length_take] at this
    omega
  rw [List.getElem?_take_of_lt hi.1] at hget
  obtain ⟨id, hop, hnext⟩ := hx i x hget hlink
  refine ⟨id, hop, ?_⟩
  have hsucc : i + 1 < n := by
    by_contra hge
    -- then `x` would be the last
    have hlen : (xs.take n).length = i + 1 := by
      rw [length_take]
      omega
    have hmem : x ∈ (xs.take n).getLast? := by
      rw [List.getLast?_eq_getElem?, hlen, Nat.add_sub_cancel, List.getElem?_take_of_lt hi.1]
      exact hget
    cases hlink.symm.trans (hlast x hmem)
  rw [List.getElem?_take_of_lt hsucc, hnext]

theorem attached_singleton {x : Sqe TimedOp} (h : x.link = false) : Attached [x] := by
  intro i y hget hlink
  obtain ⟨hi, rfl⟩ := List.getElem?_eq_some_iff.1 hget
  simp [h] at hlink

theorem attached_pair (id : ℕ) : Attached [⟨some (.receive id), true⟩, ⟨some (.timeout id), false⟩] := by
  intro i x hget hlink
  match i with
  | 0 =>
    obtain rfl := some.inj hget
    exact ⟨id, rfl, rfl⟩
  | 1 =>
    obtain rfl := some.inj hget
    cases hlink
  | i + 2 => cases hget

theorem Attached.pair (hx : Attached xs) {id : ℕ} (hmem : ⟨some (.receive id), true⟩ ∈ xs) :
    [⟨some (.receive id), true⟩, ⟨some (.timeout id), false⟩] <:+: xs := by
  obtain ⟨before, after, rfl⟩ := append_of_mem hmem
  obtain ⟨id', hop, hnext⟩ := hx before.length ⟨some (.receive id), true⟩ (by simp) rfl
  cases hop
  rw [List.getElem?_append_right (by omega)] at hnext
  cases after with
  | nil => simp at hnext
  | cons y after =>
    have hy : y = ⟨some (.timeout id), false⟩ := by simpa using hnext
    exact ⟨before, after, by rw [hy]; simp⟩

end Lists

/-! ## What the steps keep -/

structure LinkInv (l : LUringLoop TimedOp) (ids : List ℕ) : Prop where
  pendingSubmit : l.pendingSubmit = l.prepared.length
  attached : ∀ sqes ∈ l.prepared :: l.batches, Attached sqes
  reads : ∀ id ∈ ids, ∃ sqes ∈ l.prepared :: l.batches, ⟨some (.receive id), true⟩ ∈ sqes

section Steps

variable {l l' : LUringLoop TimedOp} {ids : List ℕ} {answers : List SubmitAnswer} {result : Except ℕ Unit}

theorem LinkInv.accept (inv : LinkInv l ids) {n : ℕ} (hn : n < l.prepared.length)
    (hlast : ∀ x ∈ (l.prepared.take (n + 1)).getLast?, x.link = false) : LinkInv (l.accept (n + 1)) ids := by
  have hout := flushed_accept inv.pendingSubmit (Nat.succ_pos n) hn
  have hprepared := inv.attached _ mem_cons_self
  have hbatches : (l.accept (n + 1)).batches = l.batches ++ [l.prepared.take (n + 1)] := rfl
  constructor
  · rw [hout.pendingSubmit, hout.prepared, length_drop, inv.pendingSubmit]
  · intro sqes hmem
    rw [hout.prepared, hbatches, mem_cons, mem_append, mem_singleton] at hmem
    rcases hmem with rfl | hold | rfl
    · exact hprepared.drop _
    · exact inv.attached _ (mem_cons_of_mem _ hold)
    · exact hprepared.take hlast
  · intro id hid
    obtain ⟨sqes, hmem, hreceive⟩ := inv.reads id hid
    rw [hout.prepared, hbatches]
    rcases mem_cons.1 hmem with rfl | hold
    · rw [← take_append_drop (n + 1) l.prepared, mem_append] at hreceive
      rcases hreceive with htaken | hleft
      · exact ⟨_, by simp, htaken⟩
      · exact ⟨_, mem_cons_self, hleft⟩
    · exact ⟨sqes, by simp [hold], hreceive⟩

theorem LinkInv.flush (inv : LinkInv l ids) (hkeep : KeepsPairs l.prepared answers)
    (h : l.flushSubmit answers = some (l', result)) : LinkInv l' ids := by
  obtain ⟨rest, ⟨inv', -⟩, -⟩ := flushSubmit_induct (P := fun l rest => LinkInv l ids ∧ KeepsPairs l.prepared rest)
    (fun l n rest hlt ⟨inv, hlast, hrest⟩ => ⟨inv.accept hlt hlast, hrest⟩) h ⟨inv, hkeep⟩
  exact inv'

theorem LinkInv.prepare (inv : LinkInv l ids) {sqe : Sqe TimedOp} (hsqe : sqe.link = false) :
    LinkInv (l.prepare sqe) ids := by
  constructor
  · rw [LUringLoop.prepare, length_append, ← inv.pendingSubmit]
    rfl
  · intro sqes hmem
    rcases mem_cons.1 hmem with rfl | hold
    · exact (inv.attached _ mem_cons_self).append (attached_singleton hsqe)
    · exact inv.attached _ (mem_cons_of_mem _ hold)
  · intro id hid
    obtain ⟨sqes, hmem, hreceive⟩ := inv.reads id hid
    rcases mem_cons.1 hmem with rfl | hold
    · exact ⟨_, mem_cons_self, mem_append_left _ hreceive⟩
    · exact ⟨sqes, mem_cons_of_mem _ hold, hreceive⟩

theorem LinkInv.submitOp (inv : LinkInv l ids) (hkeep : KeepsPairs l.prepared answers) {sqe : Sqe TimedOp}
    (hsqe : sqe.link = false) (h : l.submitOp sqe answers = some (l', result)) : LinkInv l' ids := by
  obtain ⟨l₁, hbefore, hafter⟩ := submitOp_out h
  have inv₁ : LinkInv l₁ ids := by
    rcases hbefore with ⟨-, -, rfl⟩ | ⟨-, flushed, hflush, -⟩
    · exact inv
    · exact inv.flush hkeep hflush
  rcases hafter with ⟨-, -, rfl⟩ | ⟨-, rfl⟩
  · exact inv₁.prepare hsqe
  · exact inv₁

theorem LinkInv.loopStep {e : LoopEvent TimedOp} (inv : LinkInv l ids) (hkeep : KeepsPairs l.prepared e.answers)
    (hplain : e.plain = true) (h : loopStep l e = some l') : LinkInv l' ids := by
  cases e with
  | submitOp op link answers =>
    obtain ⟨⟨l₁, result⟩, hsubmit, rfl⟩ := map_eq_some_iff.1 h
    cases op with
    | other id => exact inv.submitOp hkeep (by simpa [LoopEvent.plain] using hplain) hsubmit
    | receive id | timeout id => cases hplain
  | flush answers =>
    obtain ⟨⟨l₁, result⟩, hflush, rfl⟩ := map_eq_some_iff.1 h
    exact inv.flush hkeep hflush
  | complete sqe answers =>
    obtain ⟨-, ⟨-, -, rfl⟩ | ⟨-, l₁, rfl, ⟨-, -, rfl⟩ | ⟨l₂, result, harm, hl'⟩⟩⟩ := handleCqe_out h
    · exact ⟨inv.pendingSubmit, inv.attached, inv.reads⟩
    · exact ⟨inv.pendingSubmit, inv.attached, inv.reads⟩
    · have inv₁ : LinkInv { l with
          accepted := l.accepted.erase sqe, inflight := l.inflight - 1, wakeInflight := false } ids :=
        ⟨inv.pendingSubmit, inv.attached, inv.reads⟩
      obtain ⟨l₃, hsubmit, harmed⟩ := armWakePoll_out harm
      have inv₃ : LinkInv l₃ ids := inv₁.submitOp hkeep rfl hsubmit
      rcases harmed with ⟨-, rfl⟩ | ⟨-, rfl⟩ <;> rcases hl' with rfl | rfl <;>
        exact ⟨inv₃.pendingSubmit, inv₃.attached, inv₃.reads⟩
  | notification => exact some.inj h ▸ inv
  | quit =>
    obtain rfl := some.inj h
    exact ⟨inv.pendingSubmit, inv.attached, inv.reads⟩

theorem readSomeFor_out {s s' : TimedReads} {id : ℕ} {timeoutAnswers : List SubmitAnswer}
    (hpending : s.loop.pendingSubmit = s.loop.prepared.length) (hfree : s.loop.prepared.length + 1 ≠ s.loop.entries)
    (hentries : s.loop.entries ≠ 1) (h : s.readSomeFor id answers timeoutAnswers = some s') :
    ∃ l, (l = s.loop ∨ ∃ flushed, s.loop.flushSubmit answers = some (l, flushed)) ∧
      ((s'.loop = (l.prepare ⟨some (.receive id), true⟩).prepare ⟨some (.timeout id), false⟩ ∧
          s'.suspended = id :: s.suspended) ∨
       (s'.loop = l ∧ s'.suspended = s.suspended)) := by
  unfold TimedReads.readSomeFor at h
  split at h
  · cases h
  · rename_i l₁ errno hsubmit
    obtain ⟨l, hbefore, ⟨hok, -⟩ | ⟨-, rfl⟩⟩ := submitOp_out hsubmit
    · cases hok
    · obtain ⟨-, rfl⟩ := of_ite_some h
      refine ⟨_, ?_, .inr ⟨rfl, rfl⟩⟩
      exact hbefore.imp (fun hroom => hroom.2.2) fun hfull => hfull.2.imp fun _ hflush => hflush.1
  · rename_i l₁ _ hsubmit
    obtain ⟨l, hbefore, ⟨-, hroom, rfl⟩ | ⟨⟨errno, herr⟩, -⟩⟩ := submitOp_out hsubmit
    · -- there is room for the second entry
      have hsecond : (l.prepare ⟨some (.receive id), true⟩).hasSqe := by
        have hlen : (l.prepare ⟨some (.receive id), true⟩).prepared.length = l.prepared.length + 1 := by
          simp [LUringLoop.prepare]
        rw [LUringLoop.hasSqe] at hroom ⊢
        rw [hlen]
        rcases hbefore with ⟨-, -, rfl⟩ | ⟨-, flushed, hflush, hok⟩
        · exact Nat.lt_of_le_of_ne hroom hfree
        · obtain ⟨hout, hempty⟩ := flushSubmit_out hpending hflush
          rw [hempty (hok rfl)] at hroom ⊢
          exact Nat.lt_of_le_of_ne hroom (hout.entries ▸ hentries.symm)
      rw [LUringLoop.submitOp, if_pos hsecond] at h
      refine ⟨l, hbefore.imp (fun hroom => hroom.2.2) fun hfull => hfull.2.imp fun _ hflush => hflush.1, .inl ?_⟩
      split at h
      · cases h
      · rename_i hsubmit'
        cases (of_ite_some hsubmit').2
      · rename_i l₂ _ hsubmit'
        obtain ⟨-, heq⟩ := of_ite_some hsubmit'
        obtain ⟨rfl, -⟩ := Prod.mk.inj heq
        obtain rfl := some.inj h
        exact ⟨rfl, rfl⟩
    · cases herr

theorem LinkInv.preparePair (inv : LinkInv l ids) (id : ℕ) :
    LinkInv ((l.prepare ⟨some (.receive id), true⟩).prepare ⟨some (.timeout id), false⟩) (id :: ids) := by
  have hprepared : ((l.prepare ⟨some (.receive id), true⟩).prepare ⟨some (.timeout id), false⟩).prepared =
      l.prepared ++ [⟨some (.receive id), true⟩, ⟨some (.timeout id), false⟩] := append_assoc ..
  constructor
  · rw [hprepared, length_append, ← inv.pendingSubmit]
    rfl
  · intro sqes hmem
    rcases mem_cons.1 hmem with rfl | hold
    · rw [hprepared]
      exact (inv.attached _ mem_cons_self).append (attached_pair id)
    · exact inv.attached _ (mem_cons_of_mem _ hold)
  · intro id' hid'
    rw [hprepared]
    rcases mem_cons.1 hid' with rfl | hid
    · exact ⟨_, mem_cons_self, by simp⟩
    · obtain ⟨sqes, hmem, hreceive⟩ := inv.reads id' hid
      rcases mem_cons.1 hmem with rfl | hold
      · exact ⟨_, mem_cons_self, mem_append_left _ hreceive⟩
      · exact ⟨sqes, mem_cons_of_mem _ hold, hreceive⟩

theorem timedStep_inv {s s' : TimedReads} {e : TimedEvent} (inv : LinkInv s.loop s.suspended) (hkept : s.PairsKept e)
    (h : timedStep s e = some s') : LinkInv s'.loop s'.suspended := by
  cases e with
  | readSomeFor id answers timeoutAnswers =>
    obtain ⟨hkeep, hfree, hentries⟩ := hkept
    obtain ⟨-, hst⟩ := ite_none_left_eq_some.1 h
    obtain ⟨l, hbefore, hafter⟩ := readSomeFor_out inv.pendingSubmit hfree hentries hst
    have inv₁ : LinkInv l s.suspended := by
      rcases hbefore with rfl | ⟨flushed, hflush⟩
      · exact inv
      · exact inv.flush hkeep hflush
    rcases hafter with ⟨hloop, hsuspended⟩ | ⟨hloop, hsuspended⟩ <;> rw [hloop, hsuspended]
    · exact inv₁.preparePair id
    · exact inv₁
  | loop e =>
    obtain ⟨hplain, hmap⟩ := ite_none_right_eq_some.1 h
    obtain ⟨l, hst, rfl⟩ := map_eq_some_iff.1 hmap
    exact inv.loopStep hkept hplain hst

theorem init_linkInv (entries : ℕ) : LinkInv (timedInit entries).loop (timedInit entries).suspended := by
  refine ⟨rfl, fun sqes hmem => ?_, fun id hid => nomatch hid⟩
  obtain rfl : sqes = [⟨none, false⟩] := by simpa [timedInit, loopInit] using hmem
  exact attached_singleton rfl

def KeepsPairsAt (entries : ℕ) (tr : List TimedEvent) (e : TimedEvent) : Prop :=
  ∀ s ∈ run timedStep (timedInit entries) tr, s.PairsKept e

instance (entries : ℕ) (tr : List TimedEvent) (e : TimedEvent) : Decidable (KeepsPairsAt entries tr e) :=
  inferInstanceAs (Decidable (∀ s ∈ run timedStep (timedInit entries) tr, s.PairsKept e))

theorem run_linkInv (entries : ℕ) : ∀ (tr : List TimedEvent) (s : TimedReads),
    run timedStep (timedInit entries) tr = some s → EachStep (KeepsPairsAt entries) [] tr →
      LinkInv s.loop s.suspended :=
  run_induct_of (KeepsPairsAt entries) (fun _ s => LinkInv s.loop s.suspended) (init_linkInv entries)
    fun _ s _ _ hs inv hkept hst => timedStep_inv inv (hkept s hs) hst

/-- **A read's timeout is attached to it**, in every run in which no `ReadSomeFor` starts with one free entry and no
submit stops right behind a linked entry. -/
theorem timeouts_attached {entries : ℕ} {tr : List TimedEvent} {s : TimedReads}
    (hrun : run timedStep (timedInit entries) tr = some s) (hkept : EachStep (KeepsPairsAt entries) [] tr) :
    TimeoutsAttached s := by
  have inv := run_linkInv entries tr s hrun hkept
  refine ⟨inv.attached, fun id hid => ?_⟩
  obtain ⟨sqes, hmem, hreceive⟩ := inv.reads id hid
  exact ⟨sqes, hmem, (inv.attached sqes hmem).pair hreceive⟩

end Steps

/-- two reads and another operation, flushed in two submits -/
def attachedRun : List TimedEvent :=
  [.readSomeFor 1 [] [], .loop (.submitOp (.other 7) false []), .readSomeFor 2 [] [],
   .loop (.flush [.submitted 4, .submitted 2])]

theorem timeouts_attached_attachedRun : ∃ s, run timedStep (timedInit 8) attachedRun = some s ∧ TimeoutsAttached s ∧
    s.suspended = [2, 1] ∧ s.loop.batches.length = 2 :=
  ⟨_, rfl, timeouts_attached (rfl : run timedStep (timedInit 8) attachedRun = some _) (by decide), by decide, by decide⟩

/-- the flush for the timeout gets the wake poll accepted and fails; then another operation is submitted -/
def otherRun : List TimedEvent :=
  [.readSomeFor 1 [] [.submitted 1, .error 16], .loop (.submitOp (.other 7) false []), .loop (.flush [.submitted 2])]

/-- **A read without its timeout.** The queue has two entries, of which the wake poll takes one. The receive takes the
other, and the `SubmitOp` of the timeout flushes both: the receive is the last entry of its batch. If that flush fails,
the timeout is never prepared, and an operation of another coroutine is linked behind the receive. -/
theorem timeout_left_behind :
    (∃ s, run timedStep (timedInit 2) [.readSomeFor 1 [] [.submitted 2]] = some s ∧ s.suspended = [1] ∧
      s.loop.batches = [[⟨none, false⟩, ⟨some (.receive 1), true⟩]] ∧
      s.loop.prepared = [⟨some (.timeout 1), false⟩] ∧ ¬TimeoutsAttached s) ∧
    ∃ s, run timedStep (timedInit 2) otherRun = some s ∧ s.suspended = [1] ∧ s.timeoutDone = [1] ∧
      s.loop.batches = [[⟨none, false⟩], [⟨some (.receive 1), true⟩, ⟨some (.other 7), false⟩]] ∧
      ¬TimeoutsAttached s := by
  refine ⟨⟨_, rfl, rfl, rfl, rfl, fun h => ?_⟩, ⟨_, rfl, rfl, rfl, rfl, fun h => ?_⟩⟩
  · obtain ⟨id, -, hnext⟩ := h.attached [⟨none, false⟩, ⟨some (.receive 1), true⟩] (by decide) 1 _ rfl rfl
    cases hnext
  · obtain ⟨id, -, hnext⟩ := h.attached [⟨some (.receive 1), true⟩, ⟨some (.other 7), false⟩] (by decide) 0 _ rfl rfl
    cases hnext

end Coropact.Luring
