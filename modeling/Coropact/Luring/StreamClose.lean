/-
The close protocol of an io_uring stream.
-/
import Coropact.Luring.StreamSteps

namespace Coropact.Luring

open Coropact.Machine Option

/-! ## After a close -/

section Runs

variable {s t : LUringStream}

/-- no entry is submitted -/
structure NoSubmit (s t : LUringStream) : Prop where
  closed : t.closed = s.closed
  same : submits t.log = submits s.log

theorem NoSubmit.after {u : LUringStream} (h : NoSubmit t u) (h' : NoSubmit s t) : NoSubmit s u :=
  ⟨h.closed.trans h'.closed, h.same.trans h'.same⟩

theorem NoSubmit.act (h : NoSubmit s t) {x : StreamAction} (hx : submits [x] = []) : NoSubmit s (t.act x) := by
  refine ⟨h.closed, ?_⟩
  rw [LUringStream.act, submits, List.filterMap_append, ← submits, h.same, ← submits, hx, List.append_nil]

section Completions

variable (t) (op : StreamOp) (answer : Except ℕ Unit)

theorem noSubmit_tryComplete (id : ℕ) : NoSubmit t (t.tryComplete id answer) := by
  unfold LUringStream.tryComplete
  dsimp only
  split
  · exact ⟨rfl, rfl⟩
  split
  · exact ⟨rfl, rfl⟩
  refine NoSubmit.act ?_ rfl
  unfold LUringStream.closeFd
  split
  · refine NoSubmit.act ?_ rfl
    exact ⟨rfl, rfl⟩
  · exact ⟨rfl, rfl⟩

theorem noSubmit_notifyCloseProgress : NoSubmit t (t.notifyCloseProgress answer) := by
  unfold LUringStream.notifyCloseProgress
  split
  · exact ⟨rfl, rfl⟩
  · exact noSubmit_tryComplete t answer _

theorem noSubmit_leaveRead : NoSubmit t (({ t with pendingRead := none } : LUringStream).notifyCloseProgress answer) :=
  (noSubmit_notifyCloseProgress _ answer).after ⟨rfl, rfl⟩

theorem noSubmit_finishIfReady (id : ℕ) : NoSubmit t (t.finishIfReady id op answer) := by
  unfold LUringStream.finishIfReady
  dsimp only
  split_ifs
  · exact ⟨rfl, rfl⟩
  · exact ⟨(noSubmit_leaveRead t answer).closed, (noSubmit_leaveRead t answer).same⟩
  · exact ⟨rfl, rfl⟩

theorem noSubmit_onComplete : NoSubmit t (t.onComplete op answer) := by
  have hflags : ∀ a f, NoSubmit t (t.setFlags a f) := fun a f => ⟨rfl, rfl⟩
  unfold LUringStream.onComplete
  split
  · split
    · exact noSubmit_leaveRead t answer
    · exact ⟨rfl, rfl⟩
  · exact (noSubmit_finishIfReady _ _ answer _).after (hflags _ _)
  · exact (noSubmit_finishIfReady _ _ answer _).after (hflags _ _)
  · split
    · exact (noSubmit_notifyCloseProgress _ answer).after ⟨rfl, rfl⟩
    · exact ⟨rfl, rfl⟩
  · exact (noSubmit_tryComplete _ answer _).after (hflags _ _)

theorem noSubmit_handleCqe (res : ℤ) : NoSubmit t (t.handleCqe op res answer) := by
  unfold LUringStream.handleCqe LUringStream.schedule
  split
  · exact ⟨rfl, rfl⟩
  dsimp only
  split
  · refine NoSubmit.act ?_ rfl
    exact (noSubmit_onComplete _ op answer).after ⟨rfl, rfl⟩
  · exact (noSubmit_onComplete _ op answer).after ⟨rfl, rfl⟩

end Completions

theorem NoSubmit.step {u : LUringStream} {e : StreamEvent} (h : NoSubmit s t) (hclosed : t.closed = true)
    (hst : streamStep t e = some u) : NoSubmit s u := by
  have hstart : ∀ a, NoSubmit s { t with started := a :: t.started } := fun a => ⟨h.closed, h.same⟩
  have hrefusal : ∀ (a : Awaiter) (empty busy : Bool),
      ({ t with started := a :: t.started } : LUringStream).refusal empty busy = some (.error EBADF) :=
    fun a empty busy => if_pos (.inl hclosed)
  cases e with
  | readSome id empty submitted =>
    obtain ⟨-, rfl⟩ := start_some hst
    rw [LUringStream.readSome, hrefusal]
    exact (hstart _).act rfl
  | readSomeFor id empty submitted timeoutSubmitted =>
    obtain ⟨-, rfl⟩ := start_some hst
    rw [LUringStream.readSomeFor, hrefusal]
    exact (hstart _).act rfl
  | writeSome id empty submitted =>
    obtain ⟨-, rfl⟩ := start_some hst
    rw [LUringStream.writeSome, hrefusal]
    exact (hstart _).act rfl
  | close id submitted answer =>
    obtain ⟨-, rfl⟩ := start_some hst
    unfold LUringStream.close
    split
    · exact (hstart _).act rfl
    · rw [if_pos (.inl hclosed)]
      exact (hstart _).act rfl
  | complete op res answer =>
    obtain ⟨-, rfl⟩ := of_ite_some hst
    exact (noSubmit_handleCqe _ op answer res).after ⟨h.closed, h.same⟩

theorem run_noSubmit {s t : LUringStream} (hclosed : s.closed = true) {tr : List StreamEvent}
    (h : run streamStep s tr = some t) : NoSubmit s t :=
  run_induct (fun _ t => NoSubmit s t) ⟨rfl, rfl⟩
    (fun _ _ _ _ _ hno hst => hno.step (hno.closed.trans hclosed) hst) tr t h

theorem close_closed {id : ℕ} {submitted answer : Except ℕ Unit} (inv : PhaseInv s)
    (hnot : ¬s.CancelFails submitted) (a : Awaiter) :
    (({ s with started := a :: s.started } : LUringStream).close id submitted answer).closed = true := by
  unfold LUringStream.close
  split
  · rename_i hsome
    obtain ⟨id', hid'⟩ := isSome_iff_exists.1 hsome
    exact (inv.pending id' hid').1
  split
  · rename_i hclosed
    rcases hclosed with hclosed | hfd
    · exact hclosed
    · by_contra hopen
      have hfd' := (inv.opened (Bool.eq_false_iff.2 hopen)).1
      cases hfd'.symm.trans hfd
  dsimp only
  split
  · unfold LUringStream.closeFd
    split <;> rfl
  · rename_i hopen hslots
    cases submitted with
    | error errno =>
      refine absurd ⟨Bool.eq_false_iff.2 fun h => hopen (.inl h), ?_, errno, rfl⟩ hnot
      by_contra hnone
      rw [not_or, not_isSome_iff_eq_none, not_isSome_iff_eq_none] at hnone
      exact hslots hnone
    | ok _ => rfl

theorem close_reopened {id errno : ℕ} {answer : Except ℕ Unit} (inv : PhaseInv s)
    (hfails : s.CancelFails (.error errno))
    (a : Awaiter) : ({ s with started := a :: s.started } : LUringStream).close id (.error errno) answer =
      { s with started := a :: s.started, log := s.log ++ [.immediate (.close id) (.error errno)] } := by
  obtain ⟨hopen, hslots, -⟩ := hfails
  obtain ⟨hfd, hnone, -⟩ := inv.opened hopen
  have hbusy : ¬(s.pendingRead = none ∧ s.pendingWrite = none) := by
    rintro ⟨hread, hwrite⟩
    rw [hread, hwrite] at hslots
    simp at hslots
  simp [LUringStream.close, hnone, hopen, hfd, hbusy, LUringStream.act]

theorem StreamInv.waits_close_iff (inv : StreamInv none s) (hset : s.Settled) {id : ℕ}
    (hsub : .submit (.cancel id) ∈ s.log) :
    s.waits (.close id) ↔ .cancel id ∈ s.outstanding ∨ s.pendingRead.isSome ∨ s.pendingWrite.isSome := by
  constructor
  · intro hid
    by_cases hcancel : (s.flags (.close id)).cancelCompleted = true
    · exact .inr (hset id hid hcancel)
    · exact .inl ((inv.slots.outstanding _).2 ⟨hid, Bool.eq_false_iff.2 hcancel⟩)
  · rintro (hout | hslots)
    · exact ((inv.slots.outstanding _).1 hout).1
    · have hclosed : s.closed = true := by
        by_contra hopen
        exact (inv.phase.opened (Bool.eq_false_iff.2 hopen)).2.2 id hsub
      have hfd : s.fdOpen = true := by
        by_contra hshut
        obtain ⟨hread, hwrite, -⟩ := inv.phase.shut (Bool.eq_false_iff.2 hshut)
        rw [hread, hwrite] at hslots
        simp at hslots
      obtain ⟨id', hid'⟩ := ne_none_iff_exists'.1 (inv.phase.closing hclosed hfd)
      obtain rfl := ((inv.phase.pending id' hid').2.2.2 id).1 hsub
      exact hid'

theorem StreamInv.waits_iff (inv : StreamInv none s) {a : Awaiter} (ha : ∀ id, a ≠ .close id) :
    s.waits a ↔ ∃ op ∈ s.outstanding, op.awaiter = a := by
  constructor
  · intro hw
    cases a with
    | read r => exact inv.slots.unfinished r hw
    | write id => exact ⟨.send id, (inv.slots.outstanding _).2 ⟨hw, trivial⟩, rfl⟩
    | close id => exact absurd rfl (ha id)
  · rintro ⟨op, hop, rfl⟩
    exact ((inv.slots.outstanding op).1 hop).1

/-- **The close protocol**, for every order of the completions. -/
theorem close_protocol {tr : List StreamEvent} (hrun : run streamStep {} tr = some s) : CloseProtocol tr s := by
  obtain ⟨inv, hset⟩ := run_sound tr s hrun
  have hcount : ∀ op : StreamOp, .submit op ∈ s.log → (s.waits op.awaiter → resumptions op.awaiter s.log = 0) ∧
      (¬s.waits op.awaiter → resumptions op.awaiter s.log = 1) := fun op hsub =>
    ⟨inv.log.waiting _, fun hw => by simpa using inv.log.done op hsub hw⟩
  refine ⟨fun op hsub hkind => ?_, fun id hsub => ?_, inv.log.quiet, ⟨?_, fun id h => ?_⟩, fun hpos => ?_,
    fun l id submitted answer r u v htr hu hnot hv => ?_, fun l id errno answer r u htr hu hfails => ?_⟩
  · have hne : ∀ id, op.awaiter ≠ .close id := by
      intro id h
      cases op with
      | cancel id' => exact hkind id' rfl
      | receive r | timeout id' | send id' => cases h
    split_ifs with hout
    · exact (hcount op hsub).1 ((inv.waits_iff hne).2 hout)
    · exact (hcount op hsub).2 fun hw => hout ((inv.waits_iff hne).1 hw)
  · split_ifs with hout
    · exact (hcount _ hsub).1 ((inv.waits_close_iff hset hsub).2 hout)
    · exact (hcount _ hsub).2 fun hw => hout ((inv.waits_close_iff hset hsub).1 hw)
  · rw [inv.phase.fds]
    split <;> decide
  · rw [inv.phase.fds, inv.phase.closes id h]
    rfl
  · have hshut : s.fdOpen = false := by
      by_contra hopen
      rw [inv.phase.fds, if_pos (Bool.not_eq_false _ ▸ hopen)] at hpos
      cases hpos
    obtain ⟨hread, hwrite, hclose⟩ := inv.phase.shut hshut
    exact List.eq_nil_iff_forall_not_mem.2 fun op hop =>
      not_waits hread hwrite hclose _ ((inv.slots.outstanding op).1 hop).1
  · obtain ⟨w, hw, hrest⟩ := run_append_some (htr ▸ hrun)
    obtain rfl := some.inj (hu.symm.trans hw)
    obtain ⟨v', hv', hr⟩ := bind_eq_some_iff.1 hrest
    rw [run_snoc, hu] at hv
    obtain rfl := some.inj (hv'.symm.trans hv)
    obtain ⟨-, rfl⟩ := start_some hv'
    exact (run_noSubmit (close_closed (run_sound l u hu).inv.phase hnot _) hr).same
  · obtain ⟨w, hw, hrest⟩ := run_append_some (htr ▸ hrun)
    obtain rfl := some.inj (hu.symm.trans hw)
    obtain ⟨v, hv, -⟩ := bind_eq_some_iff.1 hrest
    obtain ⟨-, rfl⟩ := start_some hv
    rw [run_snoc, hu]
    exact hv.trans (congrArg some (close_reopened (run_sound l u hu).inv.phase hfails _))

end Runs

/-- a read with a timeout and a write; `Close` waits; a second `Close` is refused; the completions come in the order
cancel request, receive, send, timeout -/
def closingRun : List StreamEvent :=
  [.readSomeFor 1 false (.ok ()) (.ok ()), .writeSome 2 false (.ok ()), .close 3 (.ok ()) (.ok ()),
   .close 4 (.ok ()) (.ok ()), .readSome 5 false (.ok ()), .complete (.cancel 3) 2 (.ok ()),
   .complete (.receive (.readSomeFor 1)) (-125) (.ok ()), .complete (.send 2) (-125) (.ok ()),
   .complete (.timeout 1) (-62) (.ok ())]

theorem close_protocol_closingRun : ∃ s, run streamStep {} closingRun = some s ∧ CloseProtocol closingRun s ∧
    s.log = [.submit (.receive (.readSomeFor 1)), .submit (.timeout 1), .submit (.send 2), .submit (.cancel 3),
      .immediate (.close 4) (.error EBUSY), .immediate (.read (.readSome 5)) (.error EBADF),
      .resume (.write 2) (.error ECANCELED), .closeFd, .resume (.close 3) (.ok none),
      .resume (.read (.readSomeFor 1)) (.error ETIMEDOUT)] :=
  ⟨_, rfl, close_protocol rfl, rfl⟩

end Coropact.Luring
