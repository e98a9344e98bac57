/-
What the logger writes (`AsyncLogger` of `src/log/async_logger.cc`).

An accepted record is on its way through the buffers of its thread's shard, the buffers to write and the files. For each
shard, the accepted records of its threads are those in the files, those in the buffers to write and those in the shard,
in this order, up to a rearrangement `R`. Every step keeps this, for `R` equality or a permutation, if it holds of the
two steps that may rearrange: a drain, which takes the buffers of a shard from the back, and a write, if output is split
between the file and standard output.

The stop flag races with the appending threads. A thread that has seen `accepting_` true is in the critical section of
its shard, so that the last drain of that shard waits for it; one that comes after the drain sees it false.
-/
import Coropact.Log.AsyncLogger

namespace Coropact.Log

open Coropact.Machine LogBuffer List Function Option
open Coropact.Http (Bytes)

structure Arrangement {α : Type*} (R : List α → List α → Prop) : Prop where
  refl : ∀ l, R l l
  trans : ∀ {l₁ l₂ l₃}, R l₁ l₂ → R l₂ l₃ → R l₁ l₃
  append : ∀ {l₁ l₂ k₁ k₂}, R l₁ l₂ → R k₁ k₂ → R (l₁ ++ k₁) (l₂ ++ k₂)
  filter : ∀ {l₁ l₂} (p : α → Bool), R l₁ l₂ → R (l₁.filter p) (l₂.filter p)

theorem arrangement_eq {α : Type*} : Arrangement (Eq (α := List α)) :=
  ⟨fun _ => rfl, Eq.trans, fun h₁ h₂ => by rw [h₁, h₂], fun _ h => by rw [h]⟩

theorem arrangement_perm {α : Type*} : Arrangement (List.Perm (α := α)) :=
  ⟨List.Perm.refl, List.Perm.trans, List.Perm.append, fun p h => h.filter p⟩

section Model

variable {ι : Type*} {c : LogConfig ι} {R : List (Record ι) → List (Record ι) → Prop} {s t : AsyncLogger ι}

/-! ## Files -/

variable {i : Fin kShardCount} {f : LogFiles ι} {pc : BackendPc} {sh : Shard ι}

namespace LogFiles

theorem output_rename (renamed : Bool) (f : LogFiles ι) : (f.rename renamed).output = f.output := by
  unfold rename
  split_ifs
  · simp [output]
  · rfl

theorem output_rotateIfNeeded (c : LogConfig ι) (renamed opened : Bool) (f : LogFiles ι) :
    (f.rotateIfNeeded c renamed opened).output = f.output := by
  unfold rotateIfNeeded
  split_ifs
  · rfl
  · rfl
  · exact output_rename renamed f

variable {renamed opened : Bool}

theorem handle_rotateIfNeeded (h : f.handle ≠ none) :
    (f.rotateIfNeeded c renamed opened).handle ≠ none := by
  unfold rotateIfNeeded
  split_ifs
  · exact h
  · exact h
  · exact some_ne_none _

theorem handle_writeBuffer {b : LogBuffer ι} (h : f.handle ≠ none) :
    (f.writeBuffer c renamed opened b).handle ≠ none := by
  unfold writeBuffer
  split_ifs
  · exact h
  · unfold write
    split
    · exact handle_rotateIfNeeded h
    · exact handle_rotateIfNeeded h
    · exact handle_rotateIfNeeded h

theorem output_write_perm (h : f.handle ≠ none) (b : LogBuffer ι) :
    (f.output ++ b.records).Perm (f.write b).output := by
  unfold write output
  split
  · exact absurd ‹_› h
  · dsimp only
    simp only [append_assoc]
    exact (perm_append_comm.append_left _).append_left _
  · dsimp only
    rw [append_assoc]

theorem output_writeBuffer_perm (h : f.handle ≠ none) (b : LogBuffer ι) :
    (f.output ++ b.records).Perm (f.writeBuffer c renamed opened b).output := by
  unfold writeBuffer
  split_ifs with hskip
  · have hempty := b.empty_iff.1 (hskip.resolve_left h)
    rw [hempty, append_nil]
  · rw [← output_rotateIfNeeded c renamed opened f]
    exact output_write_perm (handle_rotateIfNeeded h) b

end LogFiles

/-! ## The invariant -/

namespace BackendPc

def written : BackendPc → ℕ
  | .writing k | .finalWriting k => k
  | _ => 0

/-- from the last drain on -/
def late : BackendPc → Bool
  | .finalDraining _ | .finalWriting _ | .returned | .absent => true
  | _ => false

/-- the last drain has been at the shard -/
def drained (i : Fin kShardCount) : BackendPc → Bool
  | .finalDraining n => i < n
  | .finalWriting _ | .returned | .absent => true
  | _ => false

theorem late_of_drained (h : pc.drained i = true) : pc.late = true := by
  cases pc with
  | top => cases h
  | draining n => cases h
  | writing k => cases h
  | absent | finalDraining n | finalWriting k | returned => rfl

/-- there are no variables of `ThreadFunc` -/
def gone : BackendPc → Bool
  | .returned | .absent => true
  | _ => false

end BackendPc

/-- the records in the buffers that are still to be written -/
def AsyncLogger.unwritten (s : AsyncLogger ι) : List (Record ι) :=
  (s.buffersToWrite.drop s.backend.written).flatMap records

/-- the buffers a drain of the shard takes, the oldest first -/
def AsyncLogger.taken (s : AsyncLogger ι) (i : Fin kShardCount) : List (LogBuffer ι) := (s.shards i).takeCurrent.buffers

/-- the record is of a thread of the shard -/
def LogConfig.atShard (c : LogConfig ι) (i : Fin kShardCount) (r : Record ι) : Bool := c.shardOf r.thread = i

/-- the next buffer is empty, and the records of the shard are of its threads -/
structure ShardInv (c : LogConfig ι) (i : Fin kShardCount) (sh : Shard ι) : Prop where
  next : ∀ b, sh.nextBuffer = some b → b.records = []
  holder : ∀ h, sh.mutex = some h → c.shardOf h.record.thread = i
  stored : ∀ r ∈ sh.stored, c.shardOf r.thread = i

structure LogInv (R : List (Record ι) → List (Record ι) → Prop) (c : LogConfig ι) (s : AsyncLogger ι) : Prop where
  shard : ∀ i, ShardInv c i (s.shards i)
  spare : ∀ b ∈ s.spareBuffers, b.records = []
  running : s.started = true ↔ s.backend ≠ .absent
  opened : s.started = true → s.files.handle ≠ none
  stopped : s.control ≠ .idle ∨ s.stopRequested = true ∨ s.backend.late = true → s.accepting = false
  drained : ∀ i, s.backend.drained i = true → (s.shards i).pending = []
  gone : s.backend.gone = true → s.buffersToWrite = []
  dropped : s.droppedMessages = s.rejected.length
  stream : ∀ i, R (s.accepted.filter (c.atShard i))
    ((s.files.output ++ s.unwritten).filter (c.atShard i) ++ (s.shards i).pending)

theorem shardInv_init (c : LogConfig ι) (i : Fin kShardCount) : ShardInv c i {} where
  next b hb := by
    rw [← some.inj hb]
    rfl
  holder h hh := by cases hh
  stored r hr := by cases hr

theorem logInv_init (hR : Arrangement R) : LogInv R c ({} : AsyncLogger ι) where
  shard := shardInv_init c
  spare b hb := by cases hb
  running := by simp
  opened h := by cases h
  stopped _ := rfl
  drained i _ := rfl
  gone _ := rfl
  dropped := rfl
  stream i := hR.refl []

theorem filter_atShard_of_forall {l : List (Record ι)} (h : ∀ r ∈ l, c.shardOf r.thread = i) :
    l.filter (c.atShard i) = l :=
  filter_eq_self.2 fun r hr => decide_eq_true (h r hr)

theorem filter_atShard_of_ne {j : Fin kShardCount} (hne : j ≠ i) {l : List (Record ι)}
    (h : ∀ r ∈ l, c.shardOf r.thread = i) :
    l.filter (c.atShard j) = [] :=
  filter_eq_nil_iff.2 fun r hr hj => hne ((of_decide_eq_true hj).symm.trans (h r hr))

/-! ### Appending threads -/

theorem LogInv.setShard (hR : Arrangement R) (inv : LogInv R c s) (new rejected : List (Record ι)) {dropped : ℕ}
    (hshard : ShardInv c i sh) (hpending : sh.pending = (s.shards i).pending ++ new)
    (hnew : ∀ r ∈ new, c.shardOf r.thread = i) (hdrained : s.backend.drained i = true → new = [])
    (hdropped : dropped = rejected.length) :
    LogInv R c { s.setShard i sh with
      accepted := s.accepted ++ new, droppedMessages := dropped, rejected := rejected } where
  shard := forall_update_iff s.shards _ |>.2 ⟨hshard, fun j _ => inv.shard j⟩
  spare := inv.spare
  running := inv.running
  opened := inv.opened
  stopped := inv.stopped
  drained := by
    refine (forall_update_iff s.shards fun j (sh : Shard ι) => s.backend.drained j = true → sh.pending = []).2
      ⟨fun hi => ?_, fun j _ => inv.drained j⟩
    rw [hpending, inv.drained i hi, hdrained hi]
    rfl
  gone := inv.gone
  dropped := hdropped
  stream := by
    refine (forall_update_iff s.shards fun j (sh : Shard ι) => R ((s.accepted ++ new).filter (c.atShard j))
      ((s.files.output ++ s.unwritten).filter (c.atShard j) ++ sh.pending)).2 ⟨?_, fun j hj => ?_⟩
    · rw [filter_append, filter_atShard_of_forall hnew, hpending, ← append_assoc]
      exact hR.append (inv.stream i) (hR.refl new)
    · rw [filter_append, filter_atShard_of_ne hj hnew, append_nil]
      exact inv.stream j

theorem LogInv.lock (hR : Arrangement R) (inv : LogInv R c s) {thread : ι} {message : Bytes}
    (hst : logStep c s (.lock thread message) = some t) : LogInv R c t := by
  rcases lock_some hst with rfl | ⟨hne, hmutex, rfl⟩
  · exact inv
  · have hold := inv.shard (c.shardOf thread)
    have hshard : ShardInv c (c.shardOf thread)
        { s.shards (c.shardOf thread) with mutex := some (.entered ⟨thread, message, hne⟩) } :=
      ⟨hold.next, fun h hh => some.inj hh ▸ rfl, hold.stored⟩
    have hkeep := inv.setShard hR [] s.rejected hshard (by simp [Shard.pending, Shard.stored, hmutex, Holder.pending])
      (fun r hr => by cases hr) (fun _ => rfl) inv.dropped
    rw [append_nil] at hkeep
    exact hkeep

theorem LogInv.loadAccepting (hR : Arrangement R) (inv : LogInv R c s) (hst : logStep c s (.loadAccepting i) = some t) :
    LogInv R c t := by
  obtain ⟨r, hmutex, rfl⟩ := loadAccepting_some hst
  have hold := inv.shard i
  have hr : c.shardOf r.thread = i := hold.holder _ hmutex
  unfold AsyncLogger.loadAccepting
  split_ifs with haccepting
  · have hshard : ShardInv c i { s.shards i with mutex := some (.accepted r) } :=
      ⟨hold.next, fun h hh => some.inj hh ▸ hr, hold.stored⟩
    refine inv.setShard hR [r] s.rejected hshard ?_ (fun r' hr' => mem_singleton.1 hr' ▸ hr) (fun hdrained => ?_)
      inv.dropped
    · simp [Shard.pending, Shard.stored, hmutex, Holder.pending]
    · -- a shard is drained for the last time only while nothing is accepted
      rw [inv.stopped (.inr (.inr (BackendPc.late_of_drained hdrained)))] at haccepting
      cases haccepting
  · have hshard : ShardInv c i { s.shards i with mutex := none } :=
      ⟨hold.next, fun h hh => (by cases hh), hold.stored⟩
    have hkeep := inv.setShard hR [] (s.rejected ++ [r]) hshard
      (by simp [Shard.pending, Shard.stored, hmutex, Holder.pending]) (fun r hr => by cases hr) (fun _ => rfl)
      (show s.droppedMessages + 1 = _ by rw [inv.dropped, length_append]; rfl)
    rw [append_nil] at hkeep
    exact hkeep

theorem LogInv.append (hR : Arrangement R) (inv : LogInv R c s) (hst : logStep c s (.append i) = some t) :
    LogInv R c t := by
  obtain ⟨r, hmutex, rfl⟩ := append_some hst
  have hold := inv.shard i
  have hr : c.shardOf r.thread = i := hold.holder _ hmutex
  unfold AsyncLogger.append
  split
  · exact { inv with }
  · rename_i sh dropped happend
    obtain ⟨rfl, hstored, hfree, -, hnext⟩ := Shard.append_some happend hold.next
    have hshard : ShardInv c i sh := by
      refine ⟨hnext, fun h hh => (by cases hfree.symm.trans hh), fun r' hr' => ?_⟩
      rw [hstored] at hr'
      rcases mem_append.1 hr' with hmem | hmem
      · exact hold.stored r' hmem
      · exact mem_singleton.1 hmem ▸ hr
    have hkeep := inv.setShard hR [] s.rejected hshard
      (by simp [Shard.pending, hstored, hfree, hmutex, Holder.pending]) (fun r hr => by cases hr) (fun _ =>
        rfl) inv.dropped
    rw [append_nil] at hkeep
    exact hkeep

/-! ### The backend -/

theorem LogInv.take (hR : Arrangement R) (inv : LogInv R c s) (hfree : (s.shards i).mutex = none)
    (hrev : R ((s.taken i).flatMap records) ((s.taken i).reverse.flatMap records))
    (hpc : s.backend.written = 0) (hpending : sh.pending = []) (j : Fin kShardCount) :
    R (s.accepted.filter (c.atShard j))
      ((s.files.output ++ (s.buffersToWrite ++ (s.taken i).reverse).flatMap records).filter (c.atShard j) ++
        (Function.update s.shards i sh j).pending) := by
  have hunwritten : s.unwritten = s.buffersToWrite.flatMap records := by
    rw [AsyncLogger.unwritten, hpc, drop_zero]
  have hstream := inv.stream j
  have htaken : (s.taken i).flatMap records = (s.shards i).stored := Shard.takeCurrent_stored _
  have hmine : ∀ r ∈ (s.taken i).reverse.flatMap records, c.shardOf r.thread = i := by
    intro r hr
    refine (inv.shard i).stored r ?_
    rw [← htaken]
    simpa only [mem_flatMap, mem_reverse] using hr
  rw [flatMap_append, ← hunwritten, ← append_assoc, filter_append]
  by_cases hj : j = i
  · subst hj
    rw [update_self, hpending, append_nil, filter_atShard_of_forall hmine]
    have hall : (s.shards j).pending = (s.taken j).flatMap records := by
      rw [Shard.pending, hfree, htaken]
      exact append_nil _
    rw [hall] at hstream
    exact hR.trans hstream (hR.append (hR.refl _) hrev)
  · rw [update_of_ne hj, filter_atShard_of_ne hj hmine, append_nil]
    exact hstream

theorem ShardInv.of_drained (hnext : ∀ b, sh.nextBuffer = some b → b.records = []) (hmutex : sh.mutex = none)
    (hstored : sh.stored = []) : ShardInv c i sh ∧ sh.pending = [] := by
  refine ⟨⟨hnext, fun h hh => (by cases hmutex.symm.trans hh), fun r hr => ?_⟩, ?_⟩
  · rw [hstored] at hr
    cases hr
  · rw [Shard.pending, hstored, hmutex]
    rfl

theorem ShardInv.drain (h : ShardInv c i sh) (hfree : sh.mutex = none) {spare : List (LogBuffer ι)}
    (hspare : ∀ b ∈ spare, b.records = []) :
    (ShardInv c i (sh.drain spare).1 ∧ (sh.drain spare).1.pending = []) ∧ ∀ b ∈ (sh.drain spare).2, b.records = [] := by
  obtain ⟨hnext, hmutex⟩ := sh.takeCurrent_rest
  have hcurrent := refill_place (fun b hb => (sh.takeCurrent_current hb).1) hspare
  have hplace := refill_place (fun b hb => h.next b (hnext.symm.trans hb)) hcurrent.2
  exact ⟨ShardInv.of_drained (fun b hb => some.inj hb ▸ hplace.1) (hmutex.trans hfree) hcurrent.1, hplace.2⟩

theorem ShardInv.finalDrain (h : ShardInv c i sh) (hfree : sh.mutex = none) :
    ShardInv c i sh.finalDrain ∧ sh.finalDrain.pending = [] := by
  obtain ⟨hnext, hmutex⟩ := sh.takeCurrent_rest
  refine ShardInv.of_drained (fun b hb => h.next b (hnext.symm.trans hb)) (hmutex.trans hfree) ?_
  unfold Shard.stored Shard.finalDrain
  cases hcurrent : sh.takeCurrent.currentBuffer with
  | none => rfl
  | some b => exact (sh.takeCurrent_current hcurrent).1

theorem LogInv.drain (hR : Arrangement R) (inv : LogInv R c s)
    (hrev : R ((s.taken i).flatMap records) ((s.taken i).reverse.flatMap records))
    (hpc : s.backend = .draining i) (hfree : (s.shards i).mutex = none) : LogInv R c (s.drain i) := by
  obtain ⟨⟨hshard, hpending⟩, hspare⟩ := (inv.shard i).drain hfree inv.spare
  exact { inv with
    shard := (forall_update_iff s.shards (ShardInv c)).2 ⟨hshard, fun j _ => inv.shard j⟩
    spare := hspare
    running := ⟨fun _ h => (by cases h), fun _ => inv.running.2 (by rw [hpc]; exact BackendPc.noConfusion)⟩
    stopped := fun h => inv.stopped (h.imp id (Or.imp id fun hlate => (by cases hlate)))
    drained := fun j hj => (by cases hj)
    gone := fun h => (by cases h)
    stream := inv.take hR hfree hrev (by rw [hpc]; rfl) hpending }

theorem LogInv.finalDrain (hR : Arrangement R) (inv : LogInv R c s)
    (hrev : R ((s.taken i).flatMap records) ((s.taken i).reverse.flatMap records))
    (hpc : s.backend = .finalDraining i) (hfree : (s.shards i).mutex = none) : LogInv R c (s.finalDrain i) := by
  obtain ⟨hshard, hpending⟩ := (inv.shard i).finalDrain hfree
  exact { inv with
    shard := (forall_update_iff s.shards (ShardInv c)).2 ⟨hshard, fun j _ => inv.shard j⟩
    running := ⟨fun _ h => (by cases h), fun _ => inv.running.2 (by rw [hpc]; exact BackendPc.noConfusion)⟩
    stopped := fun _ => inv.stopped (.inr (.inr (by rw [hpc]; rfl)))
    drained := by
      refine (forall_update_iff s.shards fun j (sh : Shard ι) =>
        (BackendPc.finalDraining (i + 1)).drained j = true → sh.pending = []).2 ⟨fun _ => hpending, fun j hj hlt => ?_⟩
      -- the shards before this one
      have hlt' : j.val < i.val + 1 := of_decide_eq_true hlt
      have hne : j.val ≠ i.val := fun h => hj (Fin.ext h)
      refine inv.drained j ?_
      rw [hpc]
      exact decide_eq_true (by omega)
    gone := fun h => (by cases h)
    stream := inv.take hR hfree hrev (by rw [hpc]; rfl) hpending }

theorem LogInv.goto (hR : Arrangement R) (inv : LogInv R c s) {pc₀ : BackendPc} {buffers spare : List (LogBuffer ι)}
    (hpc : s.backend = pc₀) (hpresent : pc₀ ≠ .absent ∧ pc ≠ .absent) (hhandle : s.started = true → f.handle ≠ none)
    (hlate : pc.late = true → s.accepting = false) (hdrained : ∀ i, pc.drained i = true → pc₀.drained i = true)
    (hgone : pc.gone = true → buffers = []) (hspare : ∀ b ∈ spare, b.records = [])
    (hstream : R (s.files.output ++ (s.buffersToWrite.drop pc₀.written).flatMap records)
      (f.output ++ (buffers.drop pc.written).flatMap records)) :
    LogInv R c { s with files := f, buffersToWrite := buffers, spareBuffers := spare, backend := pc } := by
  subst hpc
  exact { inv with
    spare := hspare
    running := ⟨fun _ => hpresent.2, fun _ => inv.running.2 hpresent.1⟩
    opened := hhandle
    stopped := by
      rintro (hcontrol | hstop | h)
      · exact inv.stopped (.inl hcontrol)
      · exact inv.stopped (.inr (.inl hstop))
      · exact hlate h
    drained := fun i hi => inv.drained i (hdrained i hi)
    gone := hgone
    stream := fun i => hR.trans (inv.stream i) (hR.append (hR.filter _ hstream) (hR.refl _)) }

theorem LogInv.write (hR : Arrangement R) (inv : LogInv R c s) {pc₀ : BackendPc} {b : LogBuffer ι}
    {renamed opened : Bool}
    (hpc : s.backend = pc₀) (hpresent : pc₀ ≠ .absent ∧ pc ≠ .absent) (hb : s.buffersToWrite[pc₀.written]? = some b)
    (hwrite : s.files.handle ≠ none → R (s.files.output ++ b.records) (s.files.writeBuffer c renamed opened b).output)
    (hnext : pc.written = pc₀.written + 1) (hgone : pc.gone = false) (hlate : pc.late = true → s.backend.late = true)
    (hdrained : ∀ i, pc.drained i = true → pc₀.drained i = true) :
    LogInv R c { s with files := s.files.writeBuffer c renamed opened b, backend := pc } := by
  have hhandle := inv.opened (inv.running.2 (hpc ▸ hpresent.1))
  obtain ⟨hlt, hget⟩ := List.getElem?_eq_some_iff.1 hb
  refine inv.goto hR hpc hpresent (fun _ => LogFiles.handle_writeBuffer hhandle)
    (fun h => inv.stopped (.inr (.inr (hlate h))))
    hdrained (fun h => (by cases hgone.symm.trans h)) inv.spare ?_
  rw [hnext, drop_eq_getElem_cons hlt, flatMap_cons, hget, ← append_assoc]
  exact hR.append (hwrite hhandle) (hR.refl _)

theorem LogInv.clear (hR : Arrangement R) (inv : LogInv R c s) {pc₀ : BackendPc} {spare : List (LogBuffer ι)}
    (hpc : s.backend = pc₀) (hpresent : pc₀ ≠ .absent ∧ pc ≠ .absent) (hwritten : pc₀.written = s.buffersToWrite.length)
    (hspare : ∀ b ∈ spare, b.records = []) (hlate : pc.late = true → s.backend.late = true)
    (hdrained : ∀ i, pc.drained i = true → pc₀.drained i = true) :
    LogInv R c { s with buffersToWrite := [], spareBuffers := spare, backend := pc } := by
  refine inv.goto hR hpc hpresent inv.opened (fun h => inv.stopped (.inr (.inr (hlate h)))) hdrained
    (fun _ => rfl) hspare ?_
  rw [hwritten, drop_length, drop_nil]
  exact hR.refl _

theorem LogInv.recycle (hR : Arrangement R) (inv : LogInv R c s) (hpc : s.backend = .writing s.buffersToWrite.length) :
    LogInv R c s.recycle := by
  refine inv.clear hR hpc ⟨BackendPc.noConfusion, BackendPc.noConfusion⟩ rfl (fun b hb => ?_) (fun h => by cases h)
    fun i h => by cases h
  rcases mem_append.1 hb with hold | hnew
  · exact inv.spare b hold
  · obtain ⟨b', -, rfl⟩ := mem_map.1 hnew
    rfl

/-! ### `Start` and `Stop` -/

theorem LogInv.absent (inv : LogInv R c s) (h : s.started = false) : s.backend = .absent ∧ s.unwritten = [] := by
  have habsent : s.backend = .absent := by
    by_contra hpresent
    cases h.symm.trans (inv.running.2 hpresent)
  refine ⟨habsent, ?_⟩
  rw [AsyncLogger.unwritten, inv.gone (by rw [habsent]; rfl), drop_nil, flatMap_nil]

theorem LogInv.start (inv : LogInv R c s) (opened : Bool) (hcontrol : s.control = .idle) :
    LogInv R c (s.start c opened) := by
  unfold AsyncLogger.start
  split_ifs with hstarted
  · exact inv
  · exact { inv with
      spare := fun b hb => (by cases hb)
      running := ⟨fun _ h => (by cases h), fun _ => rfl⟩
      opened := fun _ => some_ne_none _
      stopped := by
        rintro (h | h | h)
        · exact absurd hcontrol h
        · cases h
        · cases h
      drained := fun i h => (by cases h)
      gone := fun _ => rfl
      stream := fun i => by
        have hstream := inv.stream i
        rw [(inv.absent (Bool.eq_false_of_not_eq_true hstarted)).2] at hstream
        exact hstream }

theorem LogInv.stop (inv : LogInv R c s) : LogInv R c s.stop := by
  unfold AsyncLogger.stop
  split_ifs
  · exact { inv with stopped := fun _ => rfl }
  · exact inv

theorem LogInv.requestStop (inv : LogInv R c s) (hcontrol : s.control = .stopping) :
    LogInv R c { s with stopRequested := true, control := .joining } :=
  { inv with stopped := fun _ => inv.stopped (.inl (by rw [hcontrol]; exact ControlPc.noConfusion)) }

theorem LogInv.join (inv : LogInv R c s) (hpc : s.backend = .returned) : LogInv R c s.join :=
  { inv with
    running := ⟨fun h => (by cases h), fun h => absurd rfl h⟩
    opened := fun h => (by cases h)
    stopped := fun _ => inv.stopped (.inr (.inr (by rw [hpc]; rfl)))
    drained := fun i _ => inv.drained i (by rw [hpc]; rfl)
    gone := fun _ => inv.gone (by rw [hpc]; rfl)
    stream := fun i => by
      have hstream := inv.stream i
      rw [AsyncLogger.unwritten, hpc] at hstream
      exact hstream }

/-! ### Every step -/

/-- the shard the step drains -/
def LogEvent.drains : LogEvent ι → Option (Fin kShardCount)
  | .drain i | .finalDrain i => some i
  | _ => none

/-- a step that writes, and if `rename` and `fopen` succeed in it -/
def LogEvent.writes : LogEvent ι → Option (Bool × Bool)
  | .writeBuffer renamed opened | .finalWrite renamed opened => some (renamed, opened)
  | _ => none

theorem LogInv.step (hR : Arrangement R) (inv : LogInv R c s) {e : LogEvent ι} (hst : logStep c s e = some t)
    (hdrain : ∀ i ∈ e.drains, R ((s.taken i).flatMap records) ((s.taken i).reverse.flatMap records))
    (hwrite : ∀ p ∈ e.writes, s.files.handle ≠ none → ∀ b : LogBuffer ι,
      R (s.files.output ++ b.records) (s.files.writeBuffer c p.1 p.2 b).output) : LogInv R c t := by
  cases e with
  | start opened =>
    obtain ⟨hcontrol, rfl⟩ := of_ite_some hst
    exact inv.start opened hcontrol
  | stop =>
    obtain ⟨-, rfl⟩ := of_ite_some hst
    exact inv.stop
  | requestStop =>
    obtain ⟨hcontrol, rfl⟩ := of_ite_some hst
    exact inv.requestStop hcontrol
  | join =>
    obtain ⟨⟨-, hpc⟩, rfl⟩ := of_ite_some hst
    exact inv.join hpc
  | lock thread message => exact inv.lock hR hst
  | loadAccepting i => exact inv.loadAccepting hR hst
  | append i => exact inv.append hR hst
  | checkStop =>
    obtain ⟨hpc, rfl⟩ := of_ite_some hst
    split_ifs with hstop
    · exact inv.goto hR hpc ⟨BackendPc.noConfusion, BackendPc.noConfusion⟩ inv.opened
        (fun _ => inv.stopped (.inr (.inl hstop)))
        (fun i hi => absurd (of_decide_eq_true (p := i.val < 0) hi) (Nat.not_lt_zero _)) (fun h => by cases h) inv.spare
        (hR.refl _)
    · exact inv.goto hR hpc ⟨BackendPc.noConfusion, BackendPc.noConfusion⟩ inv.opened (fun h => by cases h)
        (fun i hi => by cases hi) (fun h => by cases h) inv.spare (hR.refl _)
  | drain i =>
    obtain ⟨⟨hpc, hfree⟩, rfl⟩ := of_ite_some hst
    exact inv.drain hR (hdrain i rfl) hpc (isNone_iff_eq_none.1 hfree)
  | endRound =>
    obtain ⟨hpc, rfl⟩ := of_ite_some hst
    unfold AsyncLogger.endRound
    split_ifs
    · exact inv.goto hR hpc ⟨BackendPc.noConfusion, BackendPc.noConfusion⟩ inv.opened (fun h => by cases h)
        (fun i hi => by cases hi) (fun h => by cases h) inv.spare (hR.refl _)
    · exact inv.goto hR hpc ⟨BackendPc.noConfusion, BackendPc.noConfusion⟩ inv.opened (fun h => by cases h)
        (fun i hi => by cases hi) (fun h => by cases h) inv.spare (hR.refl _)
  | writeBuffer renamed opened =>
    obtain ⟨k, b, hpc, hb, rfl⟩ := writeBuffer_some hst
    exact inv.write hR hpc ⟨BackendPc.noConfusion, BackendPc.noConfusion⟩ hb (fun h => hwrite _ rfl h b) rfl rfl
      (fun h => by cases h) fun i h => by cases h
  | recycle =>
    obtain ⟨hpc, rfl⟩ := of_ite_some hst
    exact inv.recycle hR hpc
  | finalDrain i =>
    obtain ⟨⟨hpc, hfree⟩, rfl⟩ := of_ite_some hst
    exact inv.finalDrain hR (hdrain i rfl) hpc (isNone_iff_eq_none.1 hfree)
  | endDrain =>
    obtain ⟨hpc, rfl⟩ := of_ite_some hst
    exact inv.goto hR hpc ⟨BackendPc.noConfusion, BackendPc.noConfusion⟩ inv.opened
      (fun _ => inv.stopped (.inr (.inr (by rw [hpc]; rfl)))) (fun i _ => decide_eq_true i.isLt) (fun h =>
        by cases h) inv.spare
      (hR.refl _)
  | finalWrite renamed opened =>
    obtain ⟨k, b, hpc, hb, rfl⟩ := finalWrite_some hst
    exact inv.write hR hpc ⟨BackendPc.noConfusion, BackendPc.noConfusion⟩ hb (fun h => hwrite _ rfl h b) rfl rfl
      (fun _ => by rw [hpc]; rfl) fun i _ => rfl
  | finish =>
    obtain ⟨hpc, rfl⟩ := of_ite_some hst
    exact inv.clear hR hpc ⟨BackendPc.noConfusion, BackendPc.noConfusion⟩ rfl (fun b hb => by cases hb)
      (fun _ => by rw [hpc]; rfl) fun i _ => rfl

/-! ## No message is lost -/

theorem run_logInv (c : LogConfig ι) : ∀ (tr : List (LogEvent ι)) (s : AsyncLogger ι),
    run (logStep c) {} tr = some s → LogInv List.Perm c s :=
  run_induct (fun _ s => LogInv List.Perm c s) (logInv_init arrangement_perm) fun _ _ _ _ _ inv hst =>
    inv.step arrangement_perm hst (fun _ _ => (reverse_perm _).symm.flatMap_right _) fun _ _ hhandle b =>
      LogFiles.output_writeBuffer_perm hhandle b

theorem LogInv.output_perm (inv : LogInv List.Perm c s) (h : s.started = false) : s.accepted.Perm s.files.output := by
  obtain ⟨habsent, hunwritten⟩ := inv.absent h
  classical
  -- each record is counted in the part of its own shard
  refine perm_iff_count.2 fun r => ?_
  have hstream := inv.stream (c.shardOf r.thread)
  rw [hunwritten, inv.drained _ (by rw [habsent]; rfl), append_nil, append_nil] at hstream
  have hcount := hstream.count_eq r
  have hmine : c.atShard (c.shardOf r.thread) r = true := decide_eq_true rfl
  rwa [count_filter hmine, count_filter hmine] at hcount

theorem logStep_history {e : LogEvent ι} (hst : logStep c s e = some t) :
    s.accepted <+: t.accepted ∧ s.rejected <+: t.rejected := by
  have hsame : s.accepted <+: s.accepted ∧ s.rejected <+: s.rejected := ⟨prefix_rfl, prefix_rfl⟩
  cases e with
  | lock thread message => rcases lock_some hst with rfl | ⟨-, -, rfl⟩ <;> exact hsame
  | loadAccepting i =>
    obtain ⟨r, -, rfl⟩ := loadAccepting_some hst
    unfold AsyncLogger.loadAccepting
    split_ifs
    · exact ⟨prefix_append _ _, prefix_rfl⟩
    · exact ⟨prefix_rfl, prefix_append _ _⟩
  | append i =>
    obtain ⟨r, -, rfl⟩ := append_some hst
    fun_cases AsyncLogger.append i r s <;> exact hsame
  | drain i | finalDrain i =>
    obtain ⟨-, rfl⟩ := of_ite_some hst
    exact hsame
  | _ =>
    obtain ⟨-, haccepted, hrejected, -⟩ := (logStep_frame hst).1 rfl
    rw [haccepted, hrejected]
    exact hsame

theorem run_history {session : List (LogEvent ι)} (hrun : run (logStep c) s session = some t) :
    s.accepted <+: t.accepted ∧ s.rejected <+: t.rejected :=
  run_induct (fun _ t => s.accepted <+: t.accepted ∧ s.rejected <+: t.rejected) ⟨prefix_rfl, prefix_rfl⟩
    (fun _ _ _ _ _ h hst => ⟨h.1.trans (logStep_history hst).1, h.2.trans (logStep_history hst).2⟩) session t hrun

/-- **Conservation.** Let a run begin and end with the logger stopped. When it ends, the files hold what they held
before and each message whose `Append` has seen `accepting_` true once, and no other; of a message that is longer than a
buffer they hold the beginning and the mark. `dropped_messages_` has grown by the number of the messages whose `Append`
has seen it false. -/
theorem log_conservation {tr session : List (LogEvent ι)} (hs : run (logStep c) {} tr = some s)
    (ht : run (logStep c) s session = some t) (hstart : s.started = false) (hend : t.started = false) :
    ∃ accepted rejected, t.accepted = s.accepted ++ accepted ∧ t.rejected = s.rejected ++ rejected ∧
      t.files.output.Perm (s.files.output ++ accepted) ∧
      (∀ r ∈ accepted, (r.message.length ≤ kBufferSize → r.text = r.message) ∧
        (kBufferSize < r.message.length →
          r.text = r.message.take (kBufferSize - kTruncatedSuffix.length) ++ kTruncatedSuffix)) ∧
      t.droppedMessages = s.droppedMessages + rejected.length := by
  have hinv := run_logInv c tr s hs
  have hinv' := run_logInv c (tr ++ session) t (by rw [run_append, hs]; exact ht)
  obtain ⟨⟨accepted, haccepted⟩, rejected, hrejected⟩ := run_history ht
  refine ⟨accepted, rejected, haccepted.symm, hrejected.symm, ?_, fun r _ => ⟨fun h => ?_, fun h => ?_⟩, ?_⟩
  · have hafter := (hinv'.output_perm hend).symm
    rw [← haccepted] at hafter
    exact hafter.trans ((hinv.output_perm hstart).append_right accepted)
  · exact if_neg (not_lt.2 h)
  · rw [Record.text, truncate, if_pos h, if_neg (by decide)]
  · rw [hinv'.dropped, hinv.dropped, ← hrejected, length_append]

end Model

/-! ## Runs -/

theorem kShardCount_ne : kShardCount ≠ 0 := by decide

instance kShardCount_neZero : NeZero kShardCount := ⟨kShardCount_ne⟩

def oneShard : LogConfig ℕ := { shardOf := fun _ => 0 }

def appendRun (message : Bytes) : List (LogEvent ℕ) := [.lock 0 message, .loadAccepting 0, .append 0]

/-- `Stop`, and the backend's last round, which finds `n` buffers -/
def stopRun (n : ℕ) : List (LogEvent ℕ) :=
  [LogEvent.stop, .requestStop, .checkStop] ++ [0, 1, 2, 3, 4, 5, 6, 7].map LogEvent.finalDrain ++
    [LogEvent.endDrain] ++ List.replicate n (LogEvent.finalWrite true true) ++ [LogEvent.finish, .join]

def shortRecord : Record ℕ := ⟨0, [1], cons_ne_nil _ _⟩

/-- a message is appended; the next one finds the logger stopped -/
def sessionRun : List (LogEvent ℕ) :=
  [LogEvent.start true] ++ appendRun [1] ++ stopRun 1 ++ [LogEvent.lock 0 [2], .loadAccepting 0]

theorem log_conservation_sessionRun : ∃ t ∈ run (logStep oneShard) {} sessionRun, t.started = false ∧
    t.rejected.length = 1 ∧ t.files.output = [shortRecord] ∧
    ∃ accepted rejected, t.accepted = accepted ∧ t.rejected = rejected ∧ t.files.output.Perm accepted ∧
      (∀ r ∈ accepted, (r.message.length ≤ kBufferSize → r.text = r.message) ∧
        (kBufferSize < r.message.length →
          r.text = r.message.take (kBufferSize - kTruncatedSuffix.length) ++ kTruncatedSuffix)) ∧
      t.droppedMessages = 0 + rejected.length := by
  have hfacts : ∃ t ∈ run (logStep oneShard) {} sessionRun, t.started = false ∧ t.rejected.length = 1 ∧
      t.files.output = [shortRecord] := by decide +kernel
  obtain ⟨t, ht, hend, hrejected, houtput⟩ := hfacts
  have hinit : run (logStep oneShard) {} [] = some {} := rfl
  exact ⟨t, ht, hend, hrejected, houtput, log_conservation hinit ht rfl hend⟩

end Coropact.Log
