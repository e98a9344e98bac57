/-
The logger after a restart (`AsyncLogger` of `src/log/async_logger.cc`).

`Append` writes to the current buffer of its shard without testing that there is one. In a round the backend fills the
place of a buffer it has taken; in the last drain, after a stop, it does not. `Start` sets `accepting_` before the first
round of the new backend. So if the last drain of a session has taken a current buffer, a thread that appends after the
next `Start` and before that round dereferences a null pointer (`restart_null_buffer`).
-/
import Coropact.Log.Conservation

namespace Coropact.Log

open Coropact.Machine Option Function

section Model

variable {ι : Type*} {c : LogConfig ι} {s t : AsyncLogger ι}

/-! ## Statements -/

/-- a last drain finds the current buffer empty and leaves it -/
def LeavesCurrent (c : LogConfig ι) (tr : List (LogEvent ι)) : LogEvent ι → Prop
  | .finalDrain i => ∀ s ∈ run (logStep c) {} tr, ∀ b ∈ (s.shards i).currentBuffer, b.empty = true
  | _ => True

instance (c : LogConfig ι) (tr : List (LogEvent ι)) (e : LogEvent ι) : Decidable (LeavesCurrent c tr e) :=
  match e with
  | .finalDrain i =>
    inferInstanceAs (Decidable (∀ s ∈ run (logStep c) {} tr, ∀ b ∈ (s.shards i).currentBuffer, b.empty = true))
  | .start _ | .stop | .requestStop | .join | .lock _ _ | .loadAccepting _ | .append _ | .checkStop
  | .drain _ | .endRound
  | .writeBuffer _ _ | .recycle | .endDrain | .finalWrite _ _ | .finish => isTrue trivial

/-- a `Start` comes after sessions whose last drains have left the current buffers -/
def CleanRestart (c : LogConfig ι) (tr : List (LogEvent ι)) : LogEvent ι → Prop
  | .start _ => EachStep (LeavesCurrent c) [] tr
  | _ => True

instance (c : LogConfig ι) (tr : List (LogEvent ι)) (e : LogEvent ι) : Decidable (CleanRestart c tr e) :=
  match e with
  | .start _ => inferInstanceAs (Decidable (EachStep (LeavesCurrent c) [] tr))
  | .stop | .requestStop | .join | .lock _ _ | .loadAccepting _ | .append _ | .checkStop | .drain _ | .endRound
  | .writeBuffer _ _ | .recycle | .finalDrain _ | .endDrain | .finalWrite _ _ | .finish => isTrue trivial

/-! ## Current buffers -/

variable {j : Fin kShardCount} {e : LogEvent ι}

theorem setShard_current {i : Fin kShardCount} {sh : Shard ι} (h : (s.shards j).currentBuffer ≠ none)
    (hsh : j = i → sh.currentBuffer ≠ none) : ((s.setShard i sh).shards j).currentBuffer ≠ none := by
  show (update s.shards i sh j).currentBuffer ≠ none
  by_cases hj : j = i
  · subst hj
    rw [update_self]
    exact hsh rfl
  · rw [update_of_ne hj]
    exact h

theorem finalDrain_current {sh : Shard ι} (h : sh.currentBuffer ≠ none)
    (hempty : ∀ b ∈ sh.currentBuffer, b.empty = true) :
    sh.finalDrain.currentBuffer ≠ none := by
  obtain ⟨b, hb⟩ := ne_none_iff_exists'.1 h
  have hkeep : sh.takeCurrent = sh := by
    unfold Shard.takeCurrent
    rw [hb]
    exact if_pos (hempty b hb)
  unfold Shard.finalDrain
  rw [hkeep]
  exact h

theorem logStep_current (hst : logStep c s e = some t)
    (hnext : ∀ i b, (s.shards i).nextBuffer = some b → b.records = []) (h : (s.shards j).currentBuffer ≠ none)
    (hkeep : e = .finalDrain j → ∀ b ∈ (s.shards j).currentBuffer, b.empty = true) :
    (t.shards j).currentBuffer ≠ none := by
  cases e with
  | lock thread message =>
    rcases lock_some hst with rfl | ⟨-, -, rfl⟩
    · exact h
    · exact setShard_current h fun hj => hj ▸ h
  | loadAccepting i =>
    obtain ⟨r, -, rfl⟩ := loadAccepting_some hst
    fun_cases AsyncLogger.loadAccepting i r s <;> exact setShard_current h fun hj => hj ▸ h
  | append i =>
    obtain ⟨r, -, rfl⟩ := append_some hst
    unfold AsyncLogger.append
    split
    · exact h
    · obtain ⟨-, -, -, hcurrent, -⟩ := Shard.append_some ‹_› (hnext i)
      exact setShard_current h fun _ => hcurrent
  | drain i =>
    obtain ⟨-, rfl⟩ := of_ite_some hst
    exact setShard_current h fun _ => some_ne_none _
  | finalDrain i =>
    obtain ⟨-, rfl⟩ := of_ite_some hst
    refine setShard_current h fun hj => ?_
    subst hj
    exact finalDrain_current h (hkeep rfl)
  | _ =>
    rw [((logStep_frame hst).1 rfl).1]
    exact h

theorem logStep_undrained (hst : logStep c s e = some t) (h : t.backend.drained j = false) :
    (s.backend.drained j = false ∧ e ≠ .finalDrain j) ∨ ∃ opened, e = .start opened := by
  cases e with
  | start opened => exact .inr ⟨opened, rfl⟩
  | stop | requestStop | lock _ _ | loadAccepting _ | append _ =>
    rw [(logStep_frame hst).2.2 rfl] at h
    exact .inl ⟨h, fun he => (by cases he)⟩
  | join | endDrain | finish =>
    obtain ⟨-, rfl⟩ := of_ite_some hst
    cases h
  | checkStop | endRound | recycle =>
    exact .inl ⟨by rw [(of_ite_some hst).1]; rfl, fun he => (by cases he)⟩
  | drain i => exact .inl ⟨by rw [(of_ite_some hst).1.1]; rfl, fun he => (by cases he)⟩
  | finalDrain i =>
    obtain ⟨⟨hpc, -⟩, rfl⟩ := of_ite_some hst
    -- the shards after this one
    have hlt : ¬ j.val < i.val + 1 := of_decide_eq_false h
    refine .inl ⟨?_, fun he => ?_⟩
    · rw [hpc]
      exact decide_eq_false (by omega)
    · cases he
      omega
  | writeBuffer renamed opened =>
    obtain ⟨k, b, hpc, -, rfl⟩ := writeBuffer_some hst
    exact .inl ⟨by rw [hpc]; rfl, fun he => (by cases he)⟩
  | finalWrite renamed opened =>
    obtain ⟨k, b, -, -, rfl⟩ := finalWrite_some hst
    cases h

theorem logStep_fault (hst : logStep c s e = some t) (h : s.fault = false)
    (hcurrent : ∀ i r, (s.shards i).mutex = some (.accepted r) → (s.shards i).currentBuffer ≠ none) :
      t.fault = false := by
  cases e with
  | lock thread message => rcases lock_some hst with rfl | ⟨-, -, rfl⟩ <;> exact h
  | loadAccepting i =>
    obtain ⟨r, -, rfl⟩ := loadAccepting_some hst
    fun_cases AsyncLogger.loadAccepting i r s <;> exact h
  | append i =>
    obtain ⟨r, hmutex, rfl⟩ := append_some hst
    unfold AsyncLogger.append
    split
    · exact absurd (Shard.append_eq_none ‹_›) (hcurrent i r hmutex)
    · exact h
  | drain i | finalDrain i =>
    obtain ⟨-, rfl⟩ := of_ite_some hst
    exact h
  | _ =>
    rw [((logStep_frame hst).1 rfl).2.2.2]
    exact h

/-! ## Restarts -/

/-- every shard has a current buffer, if the last drains have left them; and in a session one that the last drain has
not reached has one -/
structure CurrentInv (c : LogConfig ι) (tr : List (LogEvent ι)) (s : AsyncLogger ι) : Prop where
  left : EachStep (LeavesCurrent c) [] tr → ∀ i, (s.shards i).currentBuffer ≠ none
  session : ∀ i, s.backend.drained i = false → (s.shards i).currentBuffer ≠ none
  fault : s.fault = false

theorem currentInv_step {tr : List (LogEvent ι)} (hs : run (logStep c) {} tr = some s) (inv : CurrentInv c tr s)
    (hclean : CleanRestart c tr e) (hst : logStep c s e = some t) :
    CurrentInv c (tr ++ [e]) t := by
  have hlog := run_logInv c tr s hs
  have hnext : ∀ i b, (s.shards i).nextBuffer = some b → b.records = [] := fun i => (hlog.shard i).next
  refine ⟨fun hleft i => ?_, fun i hi => ?_, ?_⟩
  · obtain ⟨hold, hlast⟩ := eachStep_snoc.1 hleft
    refine logStep_current hst hnext (inv.left hold i) fun he => ?_
    subst he
    exact hlast s hs
  · rcases logStep_undrained hst hi with ⟨hold, hne⟩ | ⟨opened, rfl⟩
    · exact logStep_current hst hnext (inv.session i hold) fun he => absurd he hne
    · exact logStep_current hst hnext (inv.left hclean i) fun he => (by cases he)
  · refine logStep_fault hst inv.fault fun i r hmutex => inv.session i ?_
    -- the thread is in the critical section, so that the last drain has not been at the shard
    by_contra hdrained
    have hpending := hlog.drained i (Bool.eq_true_of_not_eq_false hdrained)
    simp [Shard.pending, hmutex, Holder.pending] at hpending

/-- **Restart.** If every last drain before a `Start` has left the current buffers in place, then along every run each
shard has a current buffer while messages are accepted, and no `Append` uses a null buffer. -/
theorem restart_has_buffers {tr : List (LogEvent ι)} (hrun : run (logStep c) {} tr = some s)
    (hclean : EachStep (CleanRestart c) [] tr) :
    (s.accepting = true → ∀ i, (s.shards i).currentBuffer ≠ none) ∧ s.fault = false := by
  have hinit : CurrentInv c [] ({} : AsyncLogger ι) :=
    ⟨fun _ i => some_ne_none _, fun i _ => some_ne_none _, rfl⟩
  have inv := run_induct_of (CleanRestart c) (CurrentInv c) hinit
    (fun l s e t hl ih hC hst => currentInv_step hl ih hC hst) tr s hrun hclean
  refine ⟨fun haccepting i => inv.session i ?_, inv.fault⟩
  by_contra hdrained
  have hlate := BackendPc.late_of_drained (Bool.eq_true_of_not_eq_false hdrained)
  rw [(run_logInv c tr s hrun).stopped (.inr (.inr hlate))] at haccepting
  cases haccepting

end Model

/-- a session whose messages are written before the stop, and another one -/
def cleanRun : List (LogEvent ℕ) :=
  [LogEvent.start true] ++ appendRun [1] ++ [LogEvent.checkStop] ++ [0, 1, 2, 3, 4, 5, 6, 7].map LogEvent.drain ++
    [LogEvent.endRound, .writeBuffer true true, .recycle] ++ stopRun 0 ++ [LogEvent.start true] ++ appendRun [2]

theorem restart_has_buffers_cleanRun : ∃ s ∈ run (logStep oneShard) {} cleanRun, s.accepting = true ∧
    s.accepted.length = 2 ∧ (s.accepting = true → ∀ i, (s.shards i).currentBuffer ≠ none) ∧ s.fault = false := by
  have hfacts : ∃ s ∈ run (logStep oneShard) {} cleanRun, s.accepting = true ∧ s.accepted.length = 2 :=
    by decide +kernel
  have hclean : EachStep (CleanRestart oneShard) [] cleanRun := by decide +kernel
  obtain ⟨s, hs, haccepting, haccepted⟩ := hfacts
  exact ⟨s, hs, haccepting, haccepted, restart_has_buffers hs hclean⟩

/-- **Null buffer.** After a session that ends with a message in a buffer, `Start` accepts messages while the shard has
no current buffer, and the next `Append` uses a null pointer. -/
theorem restart_null_buffer :
    ∃ s ∈ run (logStep oneShard) {} ([.start true] ++ appendRun [1] ++ stopRun 1 ++ [.start true]),
    s.accepting = true ∧ (s.shards 0).currentBuffer.isNone ∧
    ∃ t ∈ run (logStep oneShard) s (appendRun [2]), t.fault = true := by
  decide +kernel

end Coropact.Log
