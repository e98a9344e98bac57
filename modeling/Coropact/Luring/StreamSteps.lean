/-
What each call on an io_uring stream and each completion does to its invariant.
-/
import Coropact.Luring.StreamInvariant

namespace Coropact.Luring

open Coropact.Machine StreamOp List Function Option

/-! ## The calls -/

section Calls

variable {s t : LUringStream} {a : Awaiter} {id : ℕ} {submitted answer : Except ℕ Unit}

theorem StreamInv.immediate (inv : StreamInv none s) (ha : a ∉ s.started) {ops : StreamOp → LUringOp}
    (hops : ∀ op : StreamOp, op.awaiter ≠ a → ops op = s.ops op) {r : StreamResult}
    (hr : ∀ id, a = .close id → r = .ok none → s.fdOpen = false) :
    StreamInv none { s with started := a :: s.started, ops := ops, log := s.log ++ [.immediate a r] } := by
  have hmem : ∀ op : StreamOp, .submit op ∈ s.log ++ [.immediate a r] ↔ .submit op ∈ s.log := fun op => by simp
  refine ⟨?_, ?_, ?_⟩
  · exact inv.slots.startIdle ha rfl (fun _ => rfl) hops (fun _ => Iff.rfl) rfl
  · exact inv.log.start ha [.immediate a r] rfl rfl (fun op h => by simp at h) (fun b => rfl) (fun _ _ h => h)
      (fun _ h => h) fun op h => .inl h
  · have hfds : closeFds (s.log ++ [.immediate a r]) = closeFds s.log := by simp [closeFds]
    refine ⟨fun hopen => ?_, fun id hid => ?_, inv.phase.closing, inv.phase.shut, hfds.trans inv.phase.fds,
      fun id h => ?_⟩
    · obtain ⟨h1, h2, h3⟩ := inv.phase.opened hopen
      exact ⟨h1, h2, fun id h => h3 id ((hmem _).1 h)⟩
    · obtain ⟨h1, h2, h3, h4⟩ := inv.phase.pending id hid
      exact ⟨h1, h2, h3, fun id' => (hmem _).trans (h4 id')⟩
    · rcases h with himm | ⟨r', hres⟩
      · rcases mem_append.1 himm with hold | hnew
        · exact inv.phase.closes id (.inl hold)
        · obtain ⟨rfl, rfl⟩ : Awaiter.close id = a ∧ Except.ok none = r := by simpa using hnew
          exact hr id rfl rfl
      · exact inv.phase.closes id (.inr ⟨r', by simpa using hres⟩)

/-- **A call that suspends** has taken its slot and submitted the entries it expects. -/
theorem StreamInv.suspend (inv : StreamInv none s) (ha : a ∉ s.started) (hopen : s.closed = false)
    (hkind : ∀ id, a ≠ .close id) (new : List StreamOp) (hne : new ≠ []) (hnodup : new.Nodup)
    (hlog : t.log = s.log ++ new.reverse.map .submit) (hstarted : t.started = a :: s.started)
    (hphase : t.closed = s.closed ∧ t.fdOpen = s.fdOpen ∧ t.pendingClose = s.pendingClose)
    (hflags : ∀ b, b ≠ a → t.flags b = s.flags b) (hops : ∀ op : StreamOp, op.awaiter ≠ a → t.ops op = s.ops op)
    (hwaits : ∀ b, t.waits b ↔ s.waits b ∨ b = a) (hout : t.outstanding = new ++ s.outstanding)
    (hnew : ∀ op : StreamOp, op ∈ new ↔ op.awaiter = a ∧ op.unmarked (t.flags a))
    (hopsNew : ∀ op ∈ new, t.ops op = { handle := op.handle }) : t.Sound := by
  obtain ⟨hclosed, hfd, hpending⟩ := hphase
  obtain ⟨hfdOpen, hnone, -⟩ := inv.phase.opened hopen
  have hothers : ∀ b, b ≠ a → (t.waits b ↔ s.waits b) := fun b hb => (hwaits b).trans (or_iff_left hb)
  have hsubmit : ∀ op : StreamOp, .submit op ∈ new.reverse.map StreamAction.submit ↔ op ∈ new := fun op => by simp
  refine ⟨⟨?_, ?_, ?_⟩, fun id hid => ?_⟩
  · refine inv.slots.start ha new hstarted hflags hops hothers hout hnodup (fun op => ?_) hopsNew fun _ => hne
    rw [hnew op]
    refine and_congr_right fun hop => ?_
    rw [LUringStream.expects, hop]
    exact (and_iff_right ((hwaits a).2 (.inr rfl))).symm
  · refine inv.log.start ha _ hlog hstarted (fun op h => ?_) (fun b => ?_) (fun b hb => (hothers b hb).1)
      (fun b hb => (hwaits b).2 (.inl hb)) fun op h => ?_
    · exact ⟨((hnew op).1 ((hsubmit op).1 h)).1, (hwaits a).2 (.inr rfl)⟩
    · rw [resumptions, countP_map, countP_eq_zero]
      exact fun op _ => Bool.false_ne_true
    · rcases mem_append.1 (hout ▸ h) with hn | hs
      · exact .inr ((hsubmit op).2 hn)
      · exact .inl hs
  · refine inv.phase.extend _ hlog (fun x hx => ?_) hclosed hfd hpending (fun id => ?_) fun h => ?_
    · obtain ⟨op, hop, rfl⟩ := mem_map.1 hx
      have hopa := ((hnew op).1 (mem_reverse.1 hop)).1
      cases op with
      | cancel id => exact absurd hopa.symm (hkind id)
      | receive r | timeout id | send id => rfl
    · rw [hflags _ fun h => hkind id h.symm]
    · cases hfdOpen.symm.trans h
  · cases hnone.symm.trans (hpending ▸ hid)

theorem refusal_none {empty busy : Bool} (h : s.refusal empty busy = none) :
    s.closed = false ∧ s.fdOpen = true ∧ busy = false := by
  unfold LUringStream.refusal at h
  split_ifs at h with hclosed hempty hbusy
  rw [not_or] at hclosed
  exact ⟨by simpa using hclosed.1, by simpa using hclosed.2, by simpa using hbusy⟩

theorem update_other (ops : StreamOp → LUringOp) (op : StreamOp) (o : LUringOp) (op' : StreamOp)
    (h : op'.awaiter ≠ op.awaiter) : update ops op o op' = ops op' :=
  update_of_ne (fun heq => h (congrArg _ heq)) ..

theorem readSome_sound (inv : StreamInv none s) (hset : s.Settled) (ha : .read (.readSome id) ∉ s.started)
    (empty : Bool) :
    (({ s with started := .read (.readSome id) :: s.started } : LUringStream).readSome id empty submitted).Sound := by
  have hflags := (inv.slots.unused _ ha).1
  unfold LUringStream.readSome
  split
  · exact ⟨inv.immediate ha (fun _ _ => rfl) fun id h => absurd h (read_ne_close _ id), hset⟩
  · rename_i hrefusal
    obtain ⟨hclosed, -, hbusy⟩ := refusal_none hrefusal
    have hfree : s.pendingRead = none := not_isSome_iff_eq_none.1 (Bool.eq_false_iff.1 hbusy)
    cases submitted with
    | error errno =>
      dsimp only
      rw [← hfree]
      exact ⟨inv.immediate ha (update_other s.ops (.receive (.readSome id)) _) fun id h =>
        absurd h (read_ne_close _ id), hset⟩
    | ok _ =>
      refine inv.suspend ha hclosed (read_ne_close _) [.receive (.readSome id)] (cons_ne_nil _ _) (by simp) rfl rfl
        ⟨rfl, rfl, rfl⟩ (fun _ _ => rfl) (update_other s.ops (.receive (.readSome id)) _)
        (waits_takeRead hfree rfl rfl rfl) rfl (fun op => ?_) fun op hop => ?_
      · cases op <;> simp [awaiter, unmarked, LUringStream.submit, hflags]
      · obtain rfl := mem_singleton.1 hop
        exact update_self ..

theorem writeSome_sound (inv : StreamInv none s) (hset : s.Settled) (ha : .write id ∉ s.started) (empty : Bool) :
    (({ s with started := .write id :: s.started } : LUringStream).writeSome id empty submitted).Sound := by
  unfold LUringStream.writeSome
  split
  · exact ⟨inv.immediate ha (fun _ _ => rfl) fun id' h => absurd h (write_ne_close _ id'), hset⟩
  · rename_i hrefusal
    obtain ⟨hclosed, -, hbusy⟩ := refusal_none hrefusal
    have hfree : s.pendingWrite = none := not_isSome_iff_eq_none.1 (Bool.eq_false_iff.1 hbusy)
    cases submitted with
    | error errno =>
      dsimp only
      rw [← hfree]
      exact ⟨inv.immediate ha (update_other s.ops (.send id) _) fun id' h => absurd h (write_ne_close _ id'), hset⟩
    | ok _ =>
      refine inv.suspend ha hclosed (write_ne_close _) [.send id] (cons_ne_nil _ _) (by simp) rfl rfl
        ⟨rfl, rfl, rfl⟩ (fun _ _ => rfl) (update_other s.ops (.send id) _) (waits_takeWrite hfree rfl rfl rfl) rfl
        (fun op => ?_) fun op hop => ?_
      · cases op <;> simp [awaiter, unmarked]
      · obtain rfl := mem_singleton.1 hop
        exact update_self ..

theorem readSomeFor_sound (inv : StreamInv none s) (hset : s.Settled) (ha : .read (.readSomeFor id) ∉ s.started)
    (empty : Bool) (timeoutSubmitted : Except ℕ Unit) :
    (({ s with started := .read (.readSomeFor id) :: s.started } : LUringStream).readSomeFor id empty submitted
      timeoutSubmitted).Sound := by
  obtain ⟨hflags, hops⟩ := inv.slots.unused _ ha
  unfold LUringStream.readSomeFor
  split
  · exact ⟨inv.immediate ha (fun _ _ => rfl) fun id h => absurd h (read_ne_close _ id), hset⟩
  · rename_i hrefusal
    obtain ⟨hclosed, -, hbusy⟩ := refusal_none hrefusal
    have hfree : s.pendingRead = none := not_isSome_iff_eq_none.1 (Bool.eq_false_iff.1 hbusy)
    cases submitted with
    | error errno =>
      dsimp only
      rw [← hfree]
      exact ⟨inv.immediate ha (fun _ _ => rfl) fun id h => absurd h (read_ne_close _ id), hset⟩
    | ok _ =>
      cases timeoutSubmitted with
      | error errno =>
        -- the receive alone, and the timeout counts as done
        refine inv.suspend ha hclosed (read_ne_close _) [.receive (.readSomeFor id)] (cons_ne_nil _ _) (by simp)
          rfl rfl ⟨rfl, rfl, rfl⟩ (fun b hb => update_of_ne hb ..) (fun _ _ => rfl)
          (waits_takeRead hfree rfl rfl rfl) rfl (fun op => ?_) fun op hop => ?_
        · cases op <;>
            simp [awaiter, unmarked, LUringStream.submit, LUringStream.setFlags, hflags]
        · obtain rfl := mem_singleton.1 hop
          exact hops _ rfl
      | ok _ =>
        refine inv.suspend ha hclosed (read_ne_close _) [.timeout id, .receive (.readSomeFor id)] (cons_ne_nil _ _)
          (by simp) (append_assoc ..) rfl ⟨rfl, rfl, rfl⟩ (fun _ _ => rfl) (fun _ _ => rfl)
          (waits_takeRead hfree rfl rfl rfl) rfl (fun op => ?_) fun op hop => ?_
        · cases op <;> simp [awaiter, unmarked, LUringStream.submit, hflags]
        · have hcases : op = .timeout id ∨ op = .receive (.readSomeFor id) := by simpa using hop
          rcases hcases with rfl | rfl <;> exact hops _ rfl

theorem StreamInv.closeNow (inv : StreamInv none s) (ha : .close id ∉ s.started) (hread : s.pendingRead = none)
    (hwrite : s.pendingWrite = none) (hopen : s.closed = false) (r : StreamResult) :
    StreamInv none { s with
      started := .close id :: s.started, closed := true, fdOpen := false
      log := s.log ++ [.closeFd] ++ [.immediate (.close id) r] } := by
  obtain ⟨hfd, hnone, -⟩ := inv.phase.opened hopen
  refine ⟨?_, ?_, ?_⟩
  · exact inv.slots.startIdle ha rfl (fun _ => rfl) (fun _ _ => rfl) (fun _ => Iff.rfl) rfl
  · exact inv.log.start ha _ (append_assoc ..) rfl (fun op h => by simp at h) (fun b => rfl) (fun _ _ h => h)
      (fun _ h => h) fun op h => .inl h
  · have hzero : s.log.count .closeFd = 0 := by
      have := inv.phase.fds
      rw [hfd] at this
      exact this
    refine ⟨fun h => ?_, fun id' hid' => ?_, fun _ h => ?_, fun _ => ⟨hread, hwrite, hnone⟩, ?_, fun _ _ => rfl⟩
    · cases h
    · cases hnone.symm.trans hid'
    · cases h
    · simp [closeFds, hzero]

theorem StreamInv.closeCancel (inv : StreamInv none s) (ha : .close id ∉ s.started) (hopen : s.closed = false) :
    StreamInv none { s with
      started := .close id :: s.started, closed := true, pendingClose := some id
      outstanding := .cancel id :: s.outstanding, log := s.log ++ [.submit (.cancel id)] } := by
  obtain ⟨hflags, hops⟩ := inv.slots.unused _ ha
  obtain ⟨hfd, hnone, hcancels⟩ := inv.phase.opened hopen
  refine ⟨?_, ?_, ?_⟩
  · refine inv.slots.start ha [.cancel id] rfl (fun _ _ => rfl) (fun _ _ => rfl) (fun b hb => ?_) rfl (by simp)
      (fun op => ?_) (fun op hop => ?_) fun _ => cons_ne_nil _ _
    · cases b with
      | close id' =>
        refine ⟨fun h => absurd (congrArg _ (some.inj h).symm) hb, fun h => ?_⟩
        cases hnone.symm.trans h
      | read r | write id' => exact Iff.rfl
    · cases op with
      | cancel id' =>
        simp only [mem_singleton, cancel.injEq, awaiter, Awaiter.close.injEq]
        refine ⟨fun h => ⟨h, congrArg some h.symm, ?_⟩, And.left⟩
        rw [h, unmarked, awaiter, hflags]
      | receive r | timeout id' | send id' => simp [awaiter]
    · obtain rfl := mem_singleton.1 hop
      exact hops _ rfl
  · refine inv.log.start ha _ rfl rfl (fun op h => ?_) (fun b => rfl) (fun b hb h => ?_) (fun b h => ?_) fun op h => ?_
    · obtain rfl : op = .cancel id := by simpa using h
      exact ⟨rfl, rfl⟩
    · cases b with
      | close id' => exact absurd (congrArg _ (some.inj h).symm) hb
      | read r | write id' => exact h
    · cases b with
      | close id' => cases hnone.symm.trans h
      | read r | write id' => exact h
    · rcases mem_cons.1 h with rfl | hold
      · exact .inr mem_cons_self
      · exact .inl hold
  · refine ⟨fun h => ?_, fun id' hid' => ?_, fun _ _ => some_ne_none _, fun h => ?_, ?_, fun id' h => ?_⟩
    · cases h
    · obtain rfl := some.inj hid'
      refine ⟨rfl, hfd, by rw [hflags], fun id' => ?_⟩
      simp [hcancels]
    · cases hfd.symm.trans h
    · simpa [closeFds] using inv.phase.fds
    · exact inv.phase.closes id' (by simpa using h)

theorem close_sound (inv : StreamInv none s) (hset : s.Settled) (ha : .close id ∉ s.started) :
    (({ s with started := .close id :: s.started } : LUringStream).close id submitted answer).Sound := by
  unfold LUringStream.close
  split
  · refine ⟨inv.immediate ha (fun _ _ => rfl) fun _ _ h => ?_, hset⟩
    cases h
  rename_i hfree
  have hnone : s.pendingClose = none := not_isSome_iff_eq_none.1 hfree
  split
  · rename_i hclosed
    refine ⟨inv.immediate ha (fun _ _ => rfl) fun _ _ _ => ?_, hset⟩
    rcases hclosed with hclosed | hfd
    · exact Bool.eq_false_iff.2 fun hfd => inv.phase.closing hclosed hfd hnone
    · exact hfd
  rename_i hopen
  have hopen : s.closed = false := Bool.eq_false_iff.2 fun h => hopen (.inl h)
  obtain ⟨hfd, -, -⟩ := inv.phase.opened hopen
  dsimp only
  split
  · rename_i hslots
    rw [LUringStream.closeFd, if_pos hfd]
    exact ⟨inv.closeNow ha hslots.1 hslots.2 hopen _, fun id' hid' => by cases hnone.symm.trans hid'⟩
  · cases submitted with
    | error errno =>
      dsimp only
      rw [← hnone, ← hopen]
      refine ⟨inv.immediate ha (fun _ _ => rfl) fun _ _ h => ?_, hset⟩
      cases h
    | ok _ =>
      refine ⟨inv.closeCancel ha hopen, fun id' hid' h => ?_⟩
      obtain rfl := some.inj hid'
      have hflags := (inv.slots.unused _ ha).1
      cases (congrArg AwaiterFlags.cancelCompleted hflags).symm.trans h

end Calls

/-! ## The completions -/

section Completions

variable {s t : LUringStream} {a : Awaiter} {op : StreamOp} {id : ℕ} {answer : Except ℕ Unit}

theorem StreamInv.leave (inv : StreamInv none s) (hop : op ∈ s.outstanding)
    (hlast : ∀ op' ∈ s.outstanding, op'.awaiter = op.awaiter → op' = op) (hstarted : t.started = s.started)
    (hout : t.outstanding = s.outstanding.erase op) (hlog : t.log = s.log)
    (hphase : t.closed = s.closed ∧ t.fdOpen = s.fdOpen ∧ t.pendingClose = s.pendingClose)
    (hops : ∀ op', op' ≠ op → t.ops op' = s.ops op') (hflags : ∀ b, b ≠ op.awaiter → t.flags b = s.flags b)
    (hkind : ∀ id, op.awaiter ≠ .close id) (hwaits : ∀ b, t.waits b ↔ s.waits b ∧ b ≠ op.awaiter) :
    StreamInv (some op.awaiter) t := by
  obtain ⟨hclosed, hfd, hpending⟩ := hphase
  have hself : ¬t.waits op.awaiter := fun h => ((hwaits _).1 h).2 rfl
  refine ⟨?_, ?_, ?_⟩
  · refine inv.slots.complete hop hstarted hout hops hflags (fun b hb => (hwaits b).trans (and_iff_left hb))
      (fun op' hop' => ?_) fun r hr hra => absurd (hra ▸ hr) hself
    refine ⟨fun h => absurd (hop' ▸ h.1) hself, fun h => ?_⟩
    exact absurd (hlast op' h.1 hop') h.2
  · refine inv.log.release ((inv.slots.outstanding op).1 hop).1 hop rfl hlog hstarted hwaits fun op' hop' => ?_
    exact mem_of_mem_erase (hout ▸ hop')
  · refine inv.phase.extend [] (hlog.trans (append_nil _).symm) (forall_mem_nil _) hclosed hfd hpending
      (fun id => ?_) fun h => ?_
    · rw [hflags _ fun h => hkind id h.symm]
    · obtain ⟨hread, hwrite, hclose⟩ := inv.phase.shut h
      exact absurd ((inv.slots.outstanding op).1 hop).1 (not_waits hread hwrite hclose _)

theorem StreamInv.stay (inv : StreamInv none s) (hop : op ∈ s.outstanding) (hstarted : t.started = s.started)
    (hout : t.outstanding = s.outstanding.erase op) (hlog : t.log = s.log)
    (hphase : t.closed = s.closed ∧ t.fdOpen = s.fdOpen)
    (hops : ∀ op', op' ≠ op → t.ops op' = s.ops op') (hflags : ∀ b, b ≠ op.awaiter → t.flags b = s.flags b)
    (hcompleted : ∀ b, (t.flags b).completed = (s.flags b).completed)
    (hslots : t.pendingRead = s.pendingRead ∧ t.pendingWrite = s.pendingWrite ∧ t.pendingClose = s.pendingClose)
    (hmark : ∀ op' : StreamOp, op'.awaiter = op.awaiter →
      (op'.unmarked (t.flags op.awaiter) ↔ op'.unmarked (s.flags op.awaiter) ∧ op' ≠ op))
    (hsome : ∀ r, op.awaiter = .read r → ∃ op' ∈ s.outstanding, op'.awaiter = op.awaiter ∧ op' ≠ op) :
    StreamInv none t := by
  obtain ⟨hclosed, hfd⟩ := hphase
  obtain ⟨hread, hwrite, hclose⟩ := hslots
  have hwaits : ∀ b, t.waits b ↔ s.waits b := waits_congr hread hwrite hclose
  refine ⟨?_, ?_, ?_⟩
  · refine inv.slots.complete hop hstarted hout hops hflags (fun b _ => hwaits b) (fun op' hop' => ?_)
      fun r _ hr => hsome r hr.symm
    rw [inv.slots.outstanding op', LUringStream.expects, LUringStream.expects, hop', hwaits, hmark op' hop', and_assoc]
  · exact inv.log.congr hlog hstarted hwaits fun op' hop' => mem_of_mem_erase (hout ▸ hop')
  · refine inv.phase.extend [] (hlog.trans (append_nil _).symm) (forall_mem_nil _) hclosed hfd hclose
      (fun id => hcompleted _) fun h => ?_
    obtain ⟨hread', hwrite', -⟩ := inv.phase.shut h
    exact ⟨hread.trans hread', hwrite.trans hwrite'⟩

theorem StreamInv.resume (inv : StreamInv (some a) s) (hkind : ∀ id, a ≠ .close id) (r : StreamResult) :
    StreamInv none (s.act (.resume a r)) := by
  refine ⟨⟨inv.slots.unused, inv.slots.started, inv.slots.nodup, inv.slots.outstanding, inv.slots.ops,
    inv.slots.unfinished⟩,
    inv.log.resume r, ?_⟩
  refine inv.phase.extend [.resume a r] rfl (fun x hx => ?_) rfl rfl rfl (fun _ => rfl) fun h => ?_
  · obtain rfl := mem_singleton.1 hx
    cases a with
    | close id => exact absurd rfl (hkind id)
    | read r | write id => rfl
  · exact ⟨(inv.phase.shut h).1, (inv.phase.shut h).2.1⟩

def LUringStream.completed (s : LUringStream) (op : StreamOp) (res : ℤ) : LUringStream :=
  { s with
    outstanding := s.outstanding.erase op
    ops := update s.ops op { handle := op.handle, result := res, completed := true } }

open LUringStream

theorem handle_completed (s : LUringStream) (op : StreamOp) (res : ℤ) :
    ((s.completed op res).ops op).handle = op.handle := by
  simp [completed]

theorem handleCqe_eq (inv : SlotInv s) (hop : op ∈ s.outstanding) {res : ℤ}
    (hon : (s.completed op res).onComplete op answer = t) {handle : Option Awaiter}
    (hhandle : (t.ops op).handle = handle) :
    ({ s with outstanding := s.outstanding.erase op } : LUringStream).handleCqe op res answer = t.schedule handle := by
  have hstate : s.ops op = { handle := op.handle } := inv.ops op hop
  rw [handleCqe, if_neg (by rw [hstate]; exact Bool.false_ne_true), ← hhandle, ← hon]
  simp only [hstate, completed]

theorem complete_single (inv : StreamInv none s) (hop : op ∈ s.outstanding) {res : ℤ}
    (hhandle : op.handle = some op.awaiter) (hkind : ∀ id, op.awaiter ≠ .close id)
    (hon : (s.completed op res).onComplete op answer = t.notifyCloseProgress answer)
    (inv₁ : StreamInv (some op.awaiter) t) (hops : t.ops = (s.completed op res).ops) :
    (({ s with outstanding := s.outstanding.erase op } : LUringStream).handleCqe op res answer).Sound := by
  obtain ⟨inv₂, hset, hsame⟩ := inv₁.notifyCloseProgress answer
  have hresume : ((t.notifyCloseProgress answer).ops op).handle = some op.awaiter := by
    rw [hsame.ops, hops, handle_completed, hhandle]
  rw [handleCqe_eq inv.slots hop hon hresume]
  exact ⟨inv₂.resume hkind _, hset⟩

theorem complete_readSome (inv : StreamInv none s) (hop : .receive (.readSome id) ∈ s.outstanding) (res : ℤ) :
    (({ s with outstanding := s.outstanding.erase (.receive (.readSome id)) } : LUringStream).handleCqe
      (.receive (.readSome id)) res answer).Sound := by
  have hread : s.pendingRead = some (.readSome id) := ((inv.slots.outstanding _).1 hop).1
  refine complete_single (t := { s.completed (.receive (.readSome id)) res with pendingRead := none }) inv hop rfl
    (read_ne_close _) (if_pos hread) ?_ rfl
  refine inv.leave hop (fun op' _ h => ?_) rfl rfl rfl ⟨rfl, rfl, rfl⟩ (fun op' h => update_of_ne h ..)
    (fun _ _ => rfl) (read_ne_close _) (waits_leaveRead hread rfl rfl rfl)
  cases op' with
  | receive r => exact congrArg _ (Awaiter.read.inj h)
  | timeout id' | send id' | cancel id' => cases h

theorem complete_writeSome (inv : StreamInv none s) (hop : .send id ∈ s.outstanding) (res : ℤ) :
    (({ s with outstanding := s.outstanding.erase (.send id) } : LUringStream).handleCqe (.send id) res
      answer).Sound := by
  have hwrite : s.pendingWrite = some id := ((inv.slots.outstanding _).1 hop).1
  refine complete_single (t := { s.completed (.send id) res with pendingWrite := none }) inv hop rfl (write_ne_close _)
    (if_pos hwrite) ?_ rfl
  refine inv.leave hop (fun op' _ h => ?_) rfl rfl rfl ⟨rfl, rfl, rfl⟩ (fun op' h => update_of_ne h ..)
    (fun _ _ => rfl) (write_ne_close _) (waits_leaveWrite hwrite rfl rfl rfl)
  cases op' with
  | send id' => exact congrArg _ (Awaiter.write.inj h)
  | receive r | timeout id' | cancel id' => cases h

theorem complete_cancel (inv : StreamInv none s) (hop : .cancel id ∈ s.outstanding) (res : ℤ) :
    (({ s with outstanding := s.outstanding.erase (.cancel id) } : LUringStream).handleCqe (.cancel id) res
      answer).Sound := by
  have hid : s.pendingClose = some id := ((inv.slots.outstanding _).1 hop).1
  have inv₁ : StreamInv none ((s.completed (.cancel id) res).setFlags (.close id)
      { s.flags (.close id) with cancelCompleted := true }) := by
    refine inv.stay hop rfl rfl rfl ⟨rfl, rfl⟩ (fun op' h => update_of_ne h ..)
      (fun b h => update_of_ne h ..) (fun b => ?_) ⟨rfl, rfl, rfl⟩ (fun op' h => ?_)
      fun r h => absurd h.symm (read_ne_close r id)
    · by_cases hb : b = .close id
      · subst hb
        simp [setFlags]
      · exact congrArg AwaiterFlags.completed (update_of_ne hb ..)
    · cases op' with
      | cancel id' =>
        obtain rfl := Awaiter.close.inj h
        simp [unmarked, awaiter, setFlags]
      | receive r | timeout id' | send id' => cases h
  obtain ⟨inv₂, hset, hsame⟩ := inv₁.tryComplete hid answer
  have hnone : ((((s.completed (.cancel id) res).setFlags (.close id)
      { s.flags (.close id) with cancelCompleted := true }).tryComplete id answer).ops (.cancel id)).handle = none := by
    rw [hsame.ops]
    exact handle_completed s (.cancel id) res
  rw [handleCqe_eq inv.slots hop rfl hnone]
  exact ⟨inv₂, hset⟩

theorem StreamInv.setOp {owed : Option Awaiter} (inv : StreamInv owed s) (hop : op ∉ s.outstanding)
    (ha : op.awaiter ∈ s.started) (o : LUringOp) : StreamInv owed { s with ops := update s.ops op o } :=
  ⟨inv.slots.setOp hop ha o, inv.log.congr rfl rfl (fun _ => Iff.rfl) fun _ h => h,
    inv.phase.opened, inv.phase.pending, inv.phase.closing, inv.phase.shut, inv.phase.fds, inv.phase.closes⟩

section Timed

variable {f : AwaiterFlags} (inv : StreamInv none s) (hop : op ∈ s.outstanding)
  (ha : op.awaiter = .read (.readSomeFor id))
  (hmark : ∀ op' : StreamOp, op'.awaiter = .read (.readSomeFor id) →
    (op'.unmarked f ↔ op'.unmarked (s.flags (.read (.readSomeFor id))) ∧ op' ≠ op))

include inv hop ha hmark

theorem unmarked_iff {op' : StreamOp} (hop' : op'.awaiter = .read (.readSomeFor id)) :
    op'.unmarked f ↔ op' ∈ s.outstanding ∧ op' ≠ op := by
  have hwaits : s.waits (.read (.readSomeFor id)) := ha ▸ ((inv.slots.outstanding op).1 hop).1
  rw [hmark op' hop', inv.slots.outstanding, expects, hop']
  exact and_congr_left fun _ => (and_iff_right hwaits).symm

theorem StreamInv.firstOfTwo (hf : f.completed = (s.flags (.read (.readSomeFor id))).completed) (res : ℤ)
    (hready : f.readDone = false ∨ f.timeoutDone = false) :
    StreamInv none ((s.completed op res).setFlags (.read (.readSomeFor id)) f) := by
  refine inv.stay hop rfl rfl rfl ⟨rfl, rfl⟩ (fun op' h => update_of_ne h ..)
    (fun b h => update_of_ne (ha ▸ h) ..) (fun b => ?_) ⟨rfl, rfl, rfl⟩ (fun op' h => ?_) fun r _ => ?_
  · by_cases hb : b = .read (.readSomeFor id)
    · subst hb
      simp [setFlags, hf]
    · exact congrArg AwaiterFlags.completed (update_of_ne hb ..)
  · rw [ha, setFlags]
    simpa using hmark op' (h.trans ha)
  · rw [ha]
    rcases hready with hr | ht
    · obtain ⟨hout, hne⟩ := (unmarked_iff inv hop ha hmark (rfl : (receive (.readSomeFor id)).awaiter = _)).1 hr
      exact ⟨_, hout, rfl, hne⟩
    · obtain ⟨hout, hne⟩ := (unmarked_iff inv hop ha hmark (rfl : (timeout id).awaiter = _)).1 ht
      exact ⟨_, hout, rfl, hne⟩

theorem StreamInv.lastOfTwo (res : ℤ) (hready : f.readDone = true ∧ f.timeoutDone = true) :
    StreamInv (some (.read (.readSomeFor id)))
      { (s.completed op res).setFlags (.read (.readSomeFor id)) f with pendingRead := none } := by
  have hread : s.pendingRead = some (.readSomeFor id) := by
    have hwaits := ((inv.slots.outstanding op).1 hop).1
    rwa [ha] at hwaits
  rw [← ha]
  refine inv.leave hop (fun op' hout h => ?_) rfl rfl rfl ⟨rfl, rfl, rfl⟩ (fun op' h => update_of_ne h ..)
    (fun b h => update_of_ne h ..) (fun id' => by rw [ha]; exact read_ne_close _ id')
    (ha ▸ waits_leaveRead hread rfl rfl rfl)
  by_contra hne
  have hunmarked := (unmarked_iff inv hop ha hmark (h.trans ha)).2 ⟨hout, hne⟩
  rw [ha] at h
  cases op' with
  | receive r => cases hready.1.symm.trans hunmarked
  | timeout id' => cases hready.2.symm.trans hunmarked
  | send id' | cancel id' => cases h

theorem complete_timed (hset : s.Settled) {res : ℤ}
    (hon : (s.completed op res).onComplete op answer =
      ((s.completed op res).setFlags (.read (.readSomeFor id)) f).finishIfReady id op answer)
    (hf : f.completed = (s.flags (.read (.readSomeFor id))).completed) (hhandle : op.handle = none) :
    (({ s with outstanding := s.outstanding.erase op } : LUringStream).handleCqe op res answer).Sound := by
  have hflags : ((s.completed op res).setFlags (.read (.readSomeFor id)) f).flags (.read (.readSomeFor id)) = f :=
    update_self ..
  by_cases hready : f.readDone = false ∨ f.timeoutDone = false
  · rw [finishIfReady, hflags, if_pos hready] at hon
    rw [handleCqe_eq inv.slots hop hon ((handle_completed s op res).trans hhandle)]
    refine ⟨inv.firstOfTwo hop ha hmark hf res hready, fun id' hid' h => hset id' hid' ?_⟩
    simpa [schedule, setFlags, completed] using h
  · rw [finishIfReady, hflags, if_neg hready] at hon
    rw [not_or, Bool.not_eq_false, Bool.not_eq_false] at hready
    have hwaits := ((inv.slots.outstanding op).1 hop).1
    have hread : ((s.completed op res).setFlags (.read (.readSomeFor id)) f).pendingRead = some (.readSomeFor id) := by
      rwa [ha] at hwaits
    obtain ⟨inv₂, hset₂, hsame⟩ := (inv.lastOfTwo hop ha hmark res hready).notifyCloseProgress answer
    rw [if_pos hread] at hon
    rw [handleCqe_eq inv.slots hop hon (congrArg LUringOp.handle (update_self ..))]
    have hout : op ∉ s.outstanding.erase op := inv.slots.nodup.not_mem_erase
    have inv₃ := inv₂.setOp (hsame.outstanding ▸ hout) (hsame.started ▸ inv.slots.started _ hwaits)
    exact ⟨(inv₃ _).resume (read_ne_close _) _, hset₂⟩

end Timed

theorem complete_sound (inv : StreamInv none s) (hset : s.Settled) (hop : op ∈ s.outstanding) (res : ℤ) :
    (({ s with outstanding := s.outstanding.erase op } : LUringStream).handleCqe op res answer).Sound := by
  cases op with
  | receive r =>
    cases r with
    | readSome id => exact complete_readSome inv hop res
    | readSomeFor id =>
      refine complete_timed inv hop rfl (fun op' h => ?_) hset rfl rfl rfl
      cases op' <;> simp_all [awaiter, unmarked, completed]
  | timeout id =>
    refine complete_timed inv hop rfl (fun op' h => ?_) hset rfl rfl rfl
    cases op' <;> simp_all [awaiter, unmarked, completed]
  | send id => exact complete_writeSome inv hop res
  | cancel id => exact complete_cancel inv hop res

end Completions

/-! ## Runs -/

section Runs

variable {s t : LUringStream}

theorem start_some {a : Awaiter} {f : LUringStream → LUringStream} (h : (s.start a).map f = some t) :
    a ∉ s.started ∧ t = f { s with started := a :: s.started } := by
  obtain ⟨s₁, hs₁, rfl⟩ := map_eq_some_iff.1 h
  obtain ⟨ha, hs₁⟩ := ite_none_left_eq_some.1 hs₁
  exact ⟨ha, by rw [← some.inj hs₁]⟩

theorem streamStep_sound {e : StreamEvent} (hs : s.Sound) (h : streamStep s e = some t) : t.Sound := by
  obtain ⟨inv, hset⟩ := hs
  cases e with
  | readSome id empty submitted =>
    obtain ⟨ha, rfl⟩ := start_some h
    exact readSome_sound inv hset ha empty
  | readSomeFor id empty submitted timeoutSubmitted =>
    obtain ⟨ha, rfl⟩ := start_some h
    exact readSomeFor_sound inv hset ha empty timeoutSubmitted
  | writeSome id empty submitted =>
    obtain ⟨ha, rfl⟩ := start_some h
    exact writeSome_sound inv hset ha empty
  | close id submitted answer =>
    obtain ⟨ha, rfl⟩ := start_some h
    exact close_sound inv hset ha
  | complete op res answer =>
    obtain ⟨hop, rfl⟩ := of_ite_some h
    exact complete_sound inv hset hop res

theorem init_streamInv : StreamInv none {} where
  slots := by
    refine ⟨fun a _ => ⟨rfl, fun op _ => rfl⟩, fun a ha => ?_, .nil, fun op => ⟨nofun, fun h => ?_⟩, nofun, nofun⟩
    · exact absurd ha (not_waits rfl rfl rfl a)
    · exact absurd h.1 (not_waits rfl rfl rfl _)
  log := ⟨nofun, nofun, fun _ _ => rfl, nofun, fun _ _ => rfl, nofun⟩
  phase := ⟨fun _ => ⟨rfl, rfl, nofun⟩, nofun, nofun, nofun, rfl, fun _ h => h.elim nofun fun ⟨_, h⟩ => nomatch h⟩

theorem run_sound : ∀ (tr : List StreamEvent) (s : LUringStream), run streamStep {} tr = some s → s.Sound :=
  run_induct (fun _ s => s.Sound) ⟨init_streamInv, nofun⟩ fun _ _ _ _ _ hs hst => streamStep_sound hs hst

end Runs

end Coropact.Luring
