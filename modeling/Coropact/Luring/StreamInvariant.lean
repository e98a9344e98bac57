/-
The invariant of an io_uring stream.

Three parts, each about what the others do not mention: the slots, flags and entries (`SlotInv`); the entries submitted
and the coroutines scheduled (`LogInv`); how far a `Close` has got (`PhaseInv`). A read or write leaves its slot before
it is scheduled, and in between a waiting `Close` is looked at: `owed` names the one that is still to be scheduled.
-/
import Coropact.Luring.Stream

namespace Coropact.Luring

open List Option Function

/-! ## The invariant -/

/-- the slot that `a` waits in holds it -/
def LUringStream.waits (s : LUringStream) : Awaiter → Prop
  | .read a => s.pendingRead = some a
  | .write id => s.pendingWrite = some id
  | .close id => s.pendingClose = some id

/-- the flags of its awaiter do not say that the entry has completed -/
def StreamOp.unmarked (f : AwaiterFlags) : StreamOp → Prop
  | .receive _ => f.readDone = false
  | .timeout _ => f.timeoutDone = false
  | .send _ => True
  | .cancel _ => f.cancelCompleted = false

def LUringStream.expects (s : LUringStream) (op : StreamOp) : Prop :=
  s.waits op.awaiter ∧ op.unmarked (s.flags op.awaiter)

/-- the handle of an entry that has not completed -/
def StreamOp.handle : StreamOp → Option Awaiter
  | .receive (.readSome id) => some (.read (.readSome id))
  | .send id => some (.write id)
  | _ => none

structure SlotInv (s : LUringStream) : Prop where
  unused : ∀ a ∉ s.started, s.flags a = {} ∧ ∀ op : StreamOp, op.awaiter = a → s.ops op = {}
  started : ∀ a, s.waits a → a ∈ s.started
  nodup : s.outstanding.Nodup
  outstanding : ∀ op, op ∈ s.outstanding ↔ s.expects op
  ops : ∀ op ∈ s.outstanding, s.ops op = { handle := op.handle }
  /-- a read that waits has an entry that has not completed -/
  unfinished : ∀ r, s.waits (.read r) → ∃ op ∈ s.outstanding, op.awaiter = .read r

/-- entries submitted and coroutines scheduled; `owed` has left its slot and is about to be scheduled -/
structure LogInv (owed : Option Awaiter) (s : LUringStream) : Prop where
  unused : ∀ op : StreamOp, .submit op ∈ s.log → op.awaiter ∈ s.started
  submitted : ∀ op ∈ s.outstanding, .submit op ∈ s.log
  waiting : ∀ a, s.waits a → resumptions a s.log = 0
  done : ∀ op, .submit op ∈ s.log → ¬s.waits op.awaiter →
    resumptions op.awaiter s.log = if owed = some op.awaiter then 0 else 1
  quiet : ∀ a, (∀ op : StreamOp, op.awaiter = a → .submit op ∉ s.log) → resumptions a s.log = 0
  owes : ∀ a, owed = some a → ¬s.waits a ∧ ∃ op : StreamOp, op.awaiter = a ∧ .submit op ∈ s.log

structure PhaseInv (s : LUringStream) : Prop where
  opened : s.closed = false → s.fdOpen = true ∧ s.pendingClose = none ∧ ∀ id, .submit (.cancel id) ∉ s.log
  pending : ∀ id, s.pendingClose = some id → s.closed = true ∧ s.fdOpen = true ∧
    (s.flags (.close id)).completed = false ∧ ∀ id', .submit (.cancel id') ∈ s.log ↔ id' = id
  closing : s.closed = true → s.fdOpen = true → s.pendingClose ≠ none
  shut : s.fdOpen = false → s.pendingRead = none ∧ s.pendingWrite = none ∧ s.pendingClose = none
  fds : closeFds s.log = if s.fdOpen then 0 else 1
  closes : ∀ id, (.immediate (.close id) (.ok none) ∈ s.log ∨ ∃ r, .resume (.close id) r ∈ s.log) → s.fdOpen = false

structure StreamInv (owed : Option Awaiter) (s : LUringStream) : Prop where
  slots : SlotInv s
  log : LogInv owed s
  phase : PhaseInv s

/-- a `Close` that waits for its cancel request no more waits for a slot -/
def LUringStream.Settled (s : LUringStream) : Prop :=
  ∀ id, s.pendingClose = some id → (s.flags (.close id)).cancelCompleted = true →
    s.pendingRead.isSome ∨ s.pendingWrite.isSome

structure LUringStream.Sound (s : LUringStream) : Prop where
  inv : StreamInv none s
  settled : s.Settled

/-! ## The log -/

section Log

variable {s t : LUringStream} {a : Awaiter} {owed : Option Awaiter}

theorem resumptions_append (a : Awaiter) (log ext : List StreamAction) :
    resumptions a (log ++ ext) = resumptions a log + resumptions a ext := countP_append ..

/-- **A call by a new awaiter** submits entries of its own only, if it now waits for them, and schedules nobody. -/
theorem LogInv.start (inv : LogInv none s) (ha : a ∉ s.started) (ext : List StreamAction)
    (hlog : t.log = s.log ++ ext) (hstarted : t.started = a :: s.started)
    (hext : ∀ op : StreamOp, .submit op ∈ ext → op.awaiter = a ∧ t.waits a) (hquiet : ∀ b, resumptions b ext = 0)
    (hwaits : ∀ b, b ≠ a → t.waits b → s.waits b) (hkeeps : ∀ b, s.waits b → t.waits b)
    (hout : ∀ op ∈ t.outstanding, op ∈ s.outstanding ∨ .submit op ∈ ext) : LogInv none t := by
  have hsame : ∀ b, resumptions b t.log = resumptions b s.log := fun b => by
    rw [hlog, resumptions_append, hquiet, add_zero]
  have hnone : resumptions a s.log = 0 := inv.quiet a fun op hop hmem => ha (hop ▸ inv.unused op hmem)
  constructor
  · intro op hmem
    rw [hstarted]
    rcases mem_append.1 (hlog ▸ hmem) with hold | hnew
    · exact mem_cons_of_mem _ (inv.unused op hold)
    · exact (hext op hnew).1 ▸ mem_cons_self
  · intro op hmem
    rw [hlog]
    rcases hout op hmem with hold | hnew
    · exact mem_append_left _ (inv.submitted op hold)
    · exact mem_append_right _ hnew
  · intro b hb
    rw [hsame]
    by_cases hba : b = a
    · exact hba ▸ hnone
    · exact inv.waiting b (hwaits b hba hb)
  · intro op hmem hnot
    rw [hsame]
    rcases mem_append.1 (hlog ▸ hmem) with hold | hnew
    · exact inv.done op hold fun hwaits => hnot (hkeeps _ hwaits)
    · obtain ⟨hop, hwaiting⟩ := hext op hnew
      exact absurd (hop ▸ hwaiting) hnot
  · intro b hb
    rw [hsame]
    exact inv.quiet b fun op hop hmem => hb op hop (hlog ▸ mem_append_left _ hmem)
  · intro b hb
    cases hb

theorem LogInv.congr (inv : LogInv owed s) (hlog : t.log = s.log) (hstarted : t.started = s.started)
    (hwaits : ∀ b, t.waits b ↔ s.waits b) (hout : ∀ op ∈ t.outstanding, op ∈ s.outstanding) : LogInv owed t := by
  constructor
  · rw [hlog, hstarted]
    exact inv.unused
  · rw [hlog]
    exact fun op hmem => inv.submitted op (hout op hmem)
  · intro b hb
    rw [hlog]
    exact inv.waiting b ((hwaits b).1 hb)
  · intro op hmem hnot
    rw [hlog] at hmem ⊢
    exact inv.done op hmem fun hw => hnot ((hwaits _).2 hw)
  · rw [hlog]
    exact inv.quiet
  · rw [hlog]
    exact fun b hb => ⟨fun hw => (inv.owes b hb).1 ((hwaits b).1 hw), (inv.owes b hb).2⟩

theorem LogInv.release (inv : LogInv none s) (ha : s.waits a) {op : StreamOp} (hop : op ∈ s.outstanding)
    (hopa : op.awaiter = a) (hlog : t.log = s.log) (hstarted : t.started = s.started)
    (hwaits : ∀ b, t.waits b ↔ s.waits b ∧ b ≠ a) (hout : ∀ op ∈ t.outstanding, op ∈ s.outstanding) :
    LogInv (some a) t := by
  constructor
  · rw [hlog, hstarted]
    exact inv.unused
  · rw [hlog]
    exact fun op hmem => inv.submitted op (hout op hmem)
  · intro b hb
    rw [hlog]
    exact inv.waiting b ((hwaits b).1 hb).1
  · intro op' hmem hnot
    rw [hlog] at hmem ⊢
    by_cases ha' : op'.awaiter = a
    · rw [if_pos (congrArg some ha'.symm), ha']
      exact inv.waiting a ha
    · rw [if_neg fun heq => ha' (some.inj heq).symm]
      exact inv.done op' hmem fun hw => hnot ((hwaits _).2 ⟨hw, ha'⟩)
  · rw [hlog]
    exact inv.quiet
  · intro b hb
    obtain rfl := some.inj hb
    rw [hlog]
    exact ⟨fun hw => ((hwaits _).1 hw).2 rfl, op, hopa, inv.submitted op hop⟩

theorem LogInv.resume (inv : LogInv (some a) s) (r : StreamResult) : LogInv none (s.act (.resume a r)) := by
  obtain ⟨hnot, opa, hopa, hsub⟩ := inv.owes a rfl
  have hlog : ∀ b, resumptions b (s.log ++ [.resume a r]) = resumptions b s.log + if a = b then 1 else 0 := fun b => by
    rw [resumptions_append]
    by_cases hab : a = b <;> simp [resumptions, StreamAction.resumes, hab]
  have hmem : ∀ op : StreamOp, .submit op ∈ s.log ++ [.resume a r] → .submit op ∈ s.log := fun op h => by simpa using h
  constructor
  · exact fun op h => inv.unused op (hmem op h)
  · exact fun op h => mem_append_left _ (inv.submitted op h)
  · intro b hb
    have hne : a ≠ b := fun heq => hnot (heq ▸ hb)
    exact (hlog b).trans (by rw [if_neg hne, inv.waiting b hb])
  · intro op h hw
    refine (hlog op.awaiter).trans ?_
    rw [inv.done op (hmem op h) hw]
    by_cases hab : a = op.awaiter <;> simp [hab]
  · intro b hb
    have hne : a ≠ b := fun heq => hb opa (hopa.trans heq) (mem_append_left _ hsub)
    refine (hlog b).trans ?_
    rw [if_neg hne, inv.quiet b fun op hop h => hb op hop (mem_append_left _ h)]
  · intro b hb
    cases hb

end Log

/-! ## The slots -/

section Slots

variable {s t : LUringStream} {a : Awaiter} {op : StreamOp}

theorem read_ne_close (r : ReadAwaiter) (id : ℕ) : Awaiter.read r ≠ .close id := by
  intro h
  cases h

theorem write_ne_close (id id' : ℕ) : Awaiter.write id ≠ .close id' := by
  intro h
  cases h

section Waits

variable {r : ReadAwaiter} {id : ℕ}

theorem waits_congr (hread : t.pendingRead = s.pendingRead) (hwrite : t.pendingWrite = s.pendingWrite)
    (hclose : t.pendingClose = s.pendingClose) (b : Awaiter) : t.waits b ↔ s.waits b := by
  cases b with
  | read r => exact iff_of_eq (congrArg (· = some r) hread)
  | write id => exact iff_of_eq (congrArg (· = some id) hwrite)
  | close id => exact iff_of_eq (congrArg (· = some id) hclose)

theorem waits_takeRead (hfree : s.pendingRead = none) (hread : t.pendingRead = some r)
    (hwrite : t.pendingWrite = s.pendingWrite) (hclose : t.pendingClose = s.pendingClose) (b : Awaiter) :
    t.waits b ↔ s.waits b ∨ b = .read r := by
  cases b with
  | read r' => simp [LUringStream.waits, hfree, hread, eq_comm]
  | write id => simp [LUringStream.waits, hwrite]
  | close id => simp [LUringStream.waits, hclose]

theorem waits_takeWrite (hfree : s.pendingWrite = none) (hwrite : t.pendingWrite = some id)
    (hread : t.pendingRead = s.pendingRead) (hclose : t.pendingClose = s.pendingClose) (b : Awaiter) :
    t.waits b ↔ s.waits b ∨ b = .write id := by
  cases b with
  | read r => simp [LUringStream.waits, hread]
  | write id' => simp [LUringStream.waits, hfree, hwrite, eq_comm]
  | close id' => simp [LUringStream.waits, hclose]

theorem waits_leaveRead (hread : s.pendingRead = some r) (hnone : t.pendingRead = none)
    (hwrite : t.pendingWrite = s.pendingWrite) (hclose : t.pendingClose = s.pendingClose) (b : Awaiter) :
    t.waits b ↔ s.waits b ∧ b ≠ .read r := by
  cases b with
  | read r' => simp [LUringStream.waits, hread, hnone, eq_comm]
  | write id => simp [LUringStream.waits, hwrite]
  | close id => simp [LUringStream.waits, hclose]

theorem waits_leaveWrite (hwrite : s.pendingWrite = some id) (hnone : t.pendingWrite = none)
    (hread : t.pendingRead = s.pendingRead) (hclose : t.pendingClose = s.pendingClose) (b : Awaiter) :
    t.waits b ↔ s.waits b ∧ b ≠ .write id := by
  cases b with
  | read r => simp [LUringStream.waits, hread]
  | write id' => simp [LUringStream.waits, hwrite, hnone, eq_comm]
  | close id' => simp [LUringStream.waits, hclose]

end Waits

theorem SlotInv.start (inv : SlotInv s) (ha : a ∉ s.started) (new : List StreamOp)
    (hstarted : t.started = a :: s.started)
    (hflags : ∀ b, b ≠ a → t.flags b = s.flags b) (hops : ∀ op : StreamOp, op.awaiter ≠ a → t.ops op = s.ops op)
    (hwaits : ∀ b, b ≠ a → (t.waits b ↔ s.waits b)) (hout : t.outstanding = new ++ s.outstanding) (hnodup : new.Nodup)
    (hnew : ∀ op : StreamOp, op ∈ new ↔ op.awaiter = a ∧ t.expects op)
    (hopsNew : ∀ op ∈ new, t.ops op = { handle := op.handle }) (hsome : t.waits a → new ≠ []) : SlotInv t := by
  have hold : ∀ op ∈ s.outstanding, op.awaiter ≠ a := fun op hop heq =>
    ha (heq ▸ inv.started _ ((inv.outstanding op).1 hop).1)
  constructor
  · intro b hb
    rw [hstarted, mem_cons, not_or] at hb
    obtain ⟨hflag, hop⟩ := inv.unused b hb.2
    exact ⟨(hflags b hb.1).trans hflag, fun op hopb => (hops op (hopb ▸ hb.1)).trans (hop op hopb)⟩
  · intro b hb
    rw [hstarted]
    by_cases hba : b = a
    · exact hba ▸ mem_cons_self
    · exact mem_cons_of_mem _ (inv.started b ((hwaits b hba).1 hb))
  · rw [hout]
    refine hnodup.append inv.nodup fun op hn hs => hold op hs ((hnew op).1 hn).1
  · intro op
    rw [hout, mem_append, hnew]
    by_cases hopa : op.awaiter = a
    · exact ⟨fun h => h.elim And.right fun hs => absurd hopa (hold op hs), fun h => .inl ⟨hopa, h⟩⟩
    · rw [inv.outstanding op, LUringStream.expects, LUringStream.expects, hwaits _ hopa, hflags _ hopa]
      exact ⟨fun h => h.elim (fun hn => absurd hn.1 hopa) id, .inr⟩
  · intro op hop
    rw [hout, mem_append] at hop
    rcases hop with hn | hs
    · exact hopsNew op hn
    · rw [hops op (hold op hs)]
      exact inv.ops op hs
  · intro r hr
    rw [hout]
    by_cases hra : .read r = a
    · obtain ⟨op, hop⟩ := exists_mem_of_ne_nil new (hsome (hra ▸ hr))
      exact ⟨op, mem_append_left _ hop, ((hnew op).1 hop).1.trans hra.symm⟩
    · obtain ⟨op, hop, hopr⟩ := inv.unfinished r ((hwaits _ hra).1 hr)
      exact ⟨op, mem_append_right _ hop, hopr⟩

theorem SlotInv.startIdle (inv : SlotInv s) (ha : a ∉ s.started) (hstarted : t.started = a :: s.started)
    (hflags : ∀ b, t.flags b = s.flags b) (hops : ∀ op : StreamOp, op.awaiter ≠ a → t.ops op = s.ops op)
    (hwaits : ∀ b, t.waits b ↔ s.waits b) (hout : t.outstanding = s.outstanding) : SlotInv t := by
  have hnot : ¬t.waits a := fun h => ha (inv.started a ((hwaits a).1 h))
  refine inv.start ha [] hstarted (fun b _ => hflags b) hops (fun b _ => hwaits b) hout .nil (fun op => ?_)
    (forall_mem_nil _) fun h => absurd h hnot
  refine ⟨fun h => absurd h not_mem_nil, fun h => ?_⟩
  obtain ⟨hop, hexpects⟩ := h
  exact absurd (hop ▸ hexpects.1) hnot

theorem SlotInv.complete (inv : SlotInv s) (hop : op ∈ s.outstanding) (hstarted : t.started = s.started)
    (hout : t.outstanding = s.outstanding.erase op) (hops : ∀ op', op' ≠ op → t.ops op' = s.ops op')
    (hflags : ∀ b, b ≠ op.awaiter → t.flags b = s.flags b) (hwaits : ∀ b, b ≠ op.awaiter → (t.waits b ↔ s.waits b))
    (hself : ∀ op' : StreamOp, op'.awaiter = op.awaiter → (t.expects op' ↔ op' ∈ s.outstanding ∧ op' ≠ op))
    (hsome : ∀ r, t.waits (.read r) → .read r = op.awaiter →
      ∃ op' ∈ s.outstanding, op'.awaiter = op.awaiter ∧ op' ≠ op) : SlotInv t := by
  have hmem : ∀ op', op' ∈ t.outstanding ↔ op' ∈ s.outstanding ∧ op' ≠ op := fun op' => by
    rw [hout, inv.nodup.mem_erase_iff, and_comm]
  have hawaiter : op.awaiter ∈ s.started := inv.started _ ((inv.outstanding op).1 hop).1
  constructor
  · intro b hb
    rw [hstarted] at hb
    have hne : b ≠ op.awaiter := fun heq => hb (heq ▸ hawaiter)
    refine ⟨(hflags b hne).trans (inv.unused b hb).1, fun op' hop' => ?_⟩
    rw [hops op' fun heq => hne (heq ▸ hop'.symm)]
    exact (inv.unused b hb).2 op' hop'
  · intro b hb
    rw [hstarted]
    by_cases hne : b = op.awaiter
    · exact hne ▸ hawaiter
    · exact inv.started b ((hwaits b hne).1 hb)
  · rw [hout]
    exact inv.nodup.erase op
  · intro op'
    rw [hmem]
    by_cases hne : op'.awaiter = op.awaiter
    · exact (hself op' hne).symm
    · rw [inv.outstanding op', LUringStream.expects, LUringStream.expects, hwaits _ hne, hflags _ hne]
      exact and_iff_left fun heq => hne (heq ▸ rfl)
  · intro op' hop'
    obtain ⟨hold, hne⟩ := (hmem op').1 hop'
    rw [hops op' hne]
    exact inv.ops op' hold
  · intro r hr
    by_cases hne : .read r = op.awaiter
    · obtain ⟨op', hold, hop', hdiff⟩ := hsome r hr hne
      exact ⟨op', (hmem op').2 ⟨hold, hdiff⟩, hop'.trans hne.symm⟩
    · obtain ⟨op', hold, hop'⟩ := inv.unfinished r ((hwaits _ hne).1 hr)
      exact ⟨op', (hmem op').2 ⟨hold, fun heq => hne (heq ▸ hop'.symm)⟩, hop'⟩

theorem SlotInv.setOp (inv : SlotInv s) (hop : op ∉ s.outstanding) (ha : op.awaiter ∈ s.started) (o : LUringOp) :
    SlotInv { s with ops := update s.ops op o } := by
  refine ⟨fun b hb => ⟨(inv.unused b hb).1, fun op' hop' => ?_⟩, inv.started, inv.nodup, inv.outstanding,
    fun op' hop' => ?_,
    inv.unfinished⟩
  · have hne : op' ≠ op := fun heq => hb (hop' ▸ heq ▸ ha)
    exact (update_of_ne hne ..).trans ((inv.unused b hb).2 op' hop')
  · have hne : op' ≠ op := fun heq => hop (heq ▸ hop')
    exact (update_of_ne hne ..).trans (inv.ops op' hop')

end Slots

/-! ## The close -/

/-- an action that has nothing to do with a close -/
def StreamAction.neutral : StreamAction → Bool
  | .submit (.cancel _) | .immediate (.close _) _ | .resume (.close _) _ | .closeFd => false
  | _ => true

section Close

variable {s t : LUringStream} {owed : Option Awaiter} {id : ℕ}

theorem PhaseInv.extend (inv : PhaseInv s) (ext : List StreamAction) (hlog : t.log = s.log ++ ext)
    (hext : ∀ x ∈ ext, x.neutral = true) (hclosed : t.closed = s.closed) (hfd : t.fdOpen = s.fdOpen)
    (hpending : t.pendingClose = s.pendingClose)
    (hflags : ∀ id, (t.flags (.close id)).completed = (s.flags (.close id)).completed)
    (hslots : s.fdOpen = false → t.pendingRead = none ∧ t.pendingWrite = none) : PhaseInv t := by
  have hmem : ∀ x : StreamAction, x.neutral = false → x ∈ t.log → x ∈ s.log := by
    intro x hx h
    rcases mem_append.1 (hlog ▸ h) with hold | hnew
    · exact hold
    · cases hx.symm.trans (hext x hnew)
  constructor
  · intro hopen
    obtain ⟨h1, h2, h3⟩ := inv.opened (hclosed ▸ hopen)
    exact ⟨hfd.trans h1, hpending.trans h2, fun id h => h3 id (hmem _ rfl h)⟩
  · intro id hid
    obtain ⟨h1, h2, h3, h4⟩ := inv.pending id (hpending ▸ hid)
    exact ⟨hclosed.trans h1, hfd.trans h2, (hflags id).trans h3, fun id' => ⟨fun h => (h4 id').1 (hmem _ rfl h),
      fun h => hlog ▸ mem_append_left _ ((h4 id').2 h)⟩⟩
  · rw [hclosed, hfd, hpending]
    exact inv.closing
  · intro hshut
    obtain ⟨-, -, h3⟩ := inv.shut (hfd ▸ hshut)
    obtain ⟨hread, hwrite⟩ := hslots (hfd ▸ hshut)
    exact ⟨hread, hwrite, hpending.trans h3⟩
  · have hzero : ext.count .closeFd = 0 := count_eq_zero.2 fun h => Bool.noConfusion (hext _ h)
    rw [hlog, closeFds, count_append, hzero, add_zero, hfd]
    exact inv.fds
  · intro id h
    rw [hfd]
    refine inv.closes id (h.imp (hmem _ rfl) fun ⟨r, hr⟩ => ⟨r, hmem _ rfl hr⟩)

/-- what `TryComplete` leaves when it finishes the `Close` -/
def LUringStream.finished (s : LUringStream) (id : ℕ) (r : StreamResult) : LUringStream :=
  { s with
    flags := update s.flags (.close id) { s.flags (.close id) with completed := true }
    pendingClose := none
    fdOpen := false
    log := s.log ++ [.closeFd] ++ [.resume (.close id) r] }

theorem not_waits (hread : s.pendingRead = none) (hwrite : s.pendingWrite = none) (hclose : s.pendingClose = none)
    (b : Awaiter) : ¬s.waits b := by
  intro hb
  cases b with
  | read r => cases hread.symm.trans hb
  | write id => cases hwrite.symm.trans hb
  | close id => cases hclose.symm.trans hb

section Finished

variable (r : StreamResult) (hread : s.pendingRead = none) (hwrite : s.pendingWrite = none)
  (hid : s.pendingClose = some id)

include hread hwrite hid

theorem eq_close_of_waits {b : Awaiter} (hb : s.waits b) : b = .close id := by
  cases b with
  | read r => cases hread.symm.trans hb
  | write id => cases hwrite.symm.trans hb
  | close id' => exact congrArg _ (some.inj (hid.symm.trans hb)).symm

theorem SlotInv.finished (inv : SlotInv s) (hcancel : (s.flags (.close id)).cancelCompleted = true) :
    SlotInv (s.finished id r) ∧ s.outstanding = [] := by
  have hempty : s.outstanding = [] := by
    refine eq_nil_iff_forall_not_mem.2 fun op hop => ?_
    obtain ⟨hwaits, hunmarked⟩ := (inv.outstanding op).1 hop
    have hop := eq_close_of_waits hread hwrite hid hwaits
    cases op with
    | cancel id' =>
      rw [hop] at hunmarked
      cases hcancel.symm.trans hunmarked
    | receive r | timeout id' | send id' => cases hop
  have hnobody : ∀ b, ¬(s.finished id r).waits b := not_waits hread hwrite rfl
  refine ⟨⟨fun b hb => ⟨?_, (inv.unused b hb).2⟩, fun b hb => absurd hb (hnobody b), inv.nodup, fun op => ?_, inv.ops,
    fun r' hr' => absurd hr' (hnobody _)⟩, hempty⟩
  · have hne : b ≠ .close id := fun hbid => hb (hbid ▸ inv.started (.close id) hid)
    exact (update_of_ne hne ..).trans (inv.unused b hb).1
  · refine ⟨fun hop => ?_, fun h => absurd h.1 (hnobody _)⟩
    rw [LUringStream.finished, hempty] at hop
    cases hop

theorem LogInv.finished (inv : LogInv owed s) (hcancel : .submit (.cancel id) ∈ s.log) :
    LogInv owed (s.finished id r) := by
  have hlog : ∀ b, resumptions b (s.finished id r).log = resumptions b s.log + if .close id = b then 1
    else 0 := fun b => by
    rw [LUringStream.finished, resumptions_append, resumptions_append]
    by_cases hb : .close id = b <;> simp [resumptions, StreamAction.resumes, hb]
  have hmem : ∀ op : StreamOp, .submit op ∈ (s.finished id r).log ↔ .submit op ∈ s.log := fun op => by
    simp [LUringStream.finished]
  have hnobody : ∀ b, ¬(s.finished id r).waits b := not_waits hread hwrite rfl
  refine ⟨fun op h => inv.unused op ((hmem op).1 h), fun op h => (hmem op).2 (inv.submitted op h),
    fun b hb => absurd hb (hnobody b), fun op h _ => ?_, fun b hb => ?_, fun b hb => ?_⟩
  · rw [hlog]
    by_cases hop : .close id = op.awaiter
    · have howed : owed ≠ some op.awaiter := fun h => (inv.owes _ h).1 (hop ▸ hid)
      rw [if_pos hop, if_neg howed, inv.waiting _ (hop ▸ hid)]
    · rw [if_neg hop, add_zero]
      exact inv.done op ((hmem op).1 h) fun hw => hop (eq_close_of_waits hread hwrite hid hw).symm
  · have hne : .close id ≠ b := fun h => hb (.cancel id) h ((hmem _).2 hcancel)
    rw [hlog, if_neg hne, inv.quiet b fun op hop h => hb op hop ((hmem op).2 h)]
  · obtain ⟨-, op, hop, h⟩ := inv.owes b hb
    exact ⟨hnobody b, op, hop, (hmem op).2 h⟩

theorem PhaseInv.finished (inv : PhaseInv s) : PhaseInv (s.finished id r) := by
  obtain ⟨hclosed, hfd, -, -⟩ := inv.pending id hid
  have hzero : closeFds s.log = 0 := by
    rw [inv.fds, hfd]
    rfl
  refine ⟨fun h => ?_, nofun, nofun, fun _ => ⟨hread, hwrite, rfl⟩, ?_, fun _ _ => rfl⟩
  · cases hclosed.symm.trans h
  · rw [closeFds] at hzero ⊢
    simp [LUringStream.finished, hzero]

end Finished

/-- what a step leaves alone when it only looks at a waiting `Close` -/
structure SameOps (s t : LUringStream) : Prop where
  ops : t.ops = s.ops
  outstanding : t.outstanding = s.outstanding
  started : t.started = s.started

/-- **TryComplete.** A `Close` whose cancel request has completed closes the descriptor and is scheduled if both slots
are empty; nothing is outstanding then. -/
theorem StreamInv.tryComplete (inv : StreamInv owed s) (hid : s.pendingClose = some id) (answer : Except ℕ Unit) :
    StreamInv owed (s.tryComplete id answer) ∧ (s.tryComplete id answer).Settled ∧
      SameOps s (s.tryComplete id answer) := by
  obtain ⟨-, hfd, hcompleted, hcancels⟩ := inv.phase.pending id hid
  by_cases hcancel : (s.flags (.close id)).cancelCompleted = true
  swap
  · -- it waits for its cancel request
    have hsame : s.tryComplete id answer = s := by simp [LUringStream.tryComplete, hcancel]
    rw [hsame]
    refine ⟨inv, fun id' hid' h => ?_, rfl, rfl, rfl⟩
    obtain rfl := some.inj (hid.symm.trans hid')
    exact absurd h hcancel
  by_cases hslots : s.pendingRead.isSome ∨ s.pendingWrite.isSome
  · -- it waits for a slot
    have hsame : s.tryComplete id answer = s := by simp [LUringStream.tryComplete, hcancel, hslots]
    rw [hsame]
    exact ⟨inv, fun id' _ _ => hslots, rfl, rfl, rfl⟩
  rw [not_or, not_isSome_iff_eq_none, not_isSome_iff_eq_none] at hslots
  obtain ⟨hread, hwrite⟩ := hslots
  have heq : s.tryComplete id answer = s.finished id (answer.map fun _ => none) := by
    simp [LUringStream.tryComplete, hcancel, hcompleted, hread, hwrite, LUringStream.closeFd,
      LUringStream.setFlags, hfd,
      LUringStream.act, LUringStream.finished]
  rw [heq]
  refine ⟨⟨(inv.slots.finished _ hread hwrite hid hcancel).1, ?_, inv.phase.finished _ hread hwrite hid⟩, nofun,
    rfl, rfl, rfl⟩
  exact inv.log.finished _ hread hwrite hid ((hcancels id).2 rfl)

theorem StreamInv.notifyCloseProgress (inv : StreamInv owed s) (answer : Except ℕ Unit) :
    StreamInv owed (s.notifyCloseProgress answer) ∧ (s.notifyCloseProgress answer).Settled ∧
      SameOps s (s.notifyCloseProgress answer) := by
  unfold LUringStream.notifyCloseProgress
  split
  · rename_i hnone
    refine ⟨inv, fun id hid => ?_, rfl, rfl, rfl⟩
    cases hnone.symm.trans hid
  · exact inv.tryComplete ‹_› answer

end Close

end Coropact.Luring
