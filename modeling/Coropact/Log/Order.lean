/-
The order in which the logger writes the messages of a thread (`AsyncLogger` of `src/log/async_logger.cc`).

A drain takes the buffers of a shard from the back. If a thread has filled a buffer since the last round, its later
messages are in another one, which is written first (`log_order_reversed`).

Files can be opened, so that the log is in the files one after the other, or all on standard output.
-/
import Coropact.Log.Conservation

namespace Coropact.Log

open Coropact.Machine AsyncLogger List
open Coropact.Http (Bytes)

section Model

variable {ι : Type*} {c : LogConfig ι} {s t : AsyncLogger ι}

/-! ## Files -/

namespace LogFiles

/-- all output goes to standard output, or all to files -/
structure InOneFile (c : LogConfig ι) (f : LogFiles ι) : Prop where
  noFilename : c.noFilename = true → f.handle ≠ some .file
  filename : c.noFilename = false → f.stdout = [] ∧ f.handle ≠ some .stdout

variable {f : LogFiles ι}

theorem InOneFile.openFile (h : InOneFile c f) : InOneFile c (f.openFile c true) := by
  refine ⟨fun hname => ?_, fun hname => ⟨(h.filename hname).1, ?_⟩⟩
  · simp [LogFiles.openFile, hname]
  · simp [LogFiles.openFile, hname]

theorem InOneFile.rename (h : InOneFile c f) (renamed : Bool) : InOneFile c (f.rename renamed) := by
  unfold LogFiles.rename
  split_ifs
  · exact ⟨h.noFilename, h.filename⟩
  · exact h

theorem InOneFile.rotateIfNeeded (h : InOneFile c f) (renamed : Bool) :
    InOneFile c (f.rotateIfNeeded c renamed true) := by
  unfold LogFiles.rotateIfNeeded
  split_ifs
  · exact h
  · exact h
  · have hopen := (h.rename renamed).openFile
    exact ⟨hopen.noFilename, hopen.filename⟩

theorem InOneFile.write (h : InOneFile c f) (b : LogBuffer ι) : InOneFile c (f.write b) := by
  unfold LogFiles.write
  split
  · exact h
  · exact ⟨h.noFilename, h.filename⟩
  · rename_i hhandle
    exact ⟨h.noFilename, fun hname => absurd hhandle (h.filename hname).2⟩

theorem InOneFile.writeBuffer (h : InOneFile c f) (renamed : Bool) (b : LogBuffer ι) :
    InOneFile c (f.writeBuffer c renamed true b) := by
  unfold LogFiles.writeBuffer
  split_ifs
  · exact h
  · exact (h.rotateIfNeeded renamed).write b

theorem InOneFile.output_write (h : InOneFile c f) (hhandle : f.handle ≠ none) (b : LogBuffer ι) :
    f.output ++ b.records = (f.write b).output := by
  unfold LogFiles.write output
  split
  · exact absurd ‹_› hhandle
  · rename_i hfile
    have hname : c.noFilename = false := Bool.eq_false_iff.2 fun hname => h.noFilename hname hfile
    simp [(h.filename hname).1]
  · dsimp only
    rw [append_assoc]

theorem InOneFile.output_writeBuffer (h : InOneFile c f) (hhandle : f.handle ≠ none) (renamed : Bool)
    (b : LogBuffer ι) :
    f.output ++ b.records = (f.writeBuffer c renamed true b).output := by
  unfold LogFiles.writeBuffer
  split_ifs with hskip
  · have hempty := b.empty_iff.1 (hskip.resolve_left hhandle)
    rw [hempty, append_nil]
  · rw [← output_rotateIfNeeded c renamed true f]
    exact (h.rotateIfNeeded renamed).output_write (handle_rotateIfNeeded hhandle) b

end LogFiles

/-! ## Order -/

def OneBuffer (c : LogConfig ι) (tr : List (LogEvent ι)) (e : LogEvent ι) : Prop :=
  ∀ i ∈ e.drains, ∀ s ∈ run (logStep c) {} tr, (s.taken i).length ≤ 1

instance (c : LogConfig ι) (tr : List (LogEvent ι)) (e : LogEvent ι) : Decidable (OneBuffer c tr e) :=
  inferInstanceAs (Decidable (∀ i ∈ e.drains, ∀ s ∈ run (logStep c) {} tr, (s.taken i).length ≤ 1))

/-- `fopen` does not fail -/
def LogEvent.opens : LogEvent ι → Bool
  | .start opened | .writeBuffer _ opened | .finalWrite _ opened => opened
  | _ => true

theorem reverse_of_length_le_one {α : Type*} {l : List α} (h : l.length ≤ 1) : l.reverse = l := by
  match l with
  | [] => rfl
  | [a] => rfl
  | a :: b :: l => simp at h

theorem writes_opens {e : LogEvent ι} {p : Bool × Bool} (h : p ∈ e.writes) (hopens : e.opens = true) : p.2 = true := by
  cases e <;> simp only [LogEvent.writes, Option.mem_def, Option.some.injEq, reduceCtorEq] at h
  · subst h
    exact hopens
  · subst h
    exact hopens

theorem inOneFile_step {e : LogEvent ι} (h : s.files.InOneFile c) (hopens : e.opens = true)
    (hst : logStep c s e = some t) :
    t.files.InOneFile c := by
  cases e with
  | start opened =>
    obtain ⟨-, rfl⟩ := of_ite_some hst
    obtain rfl : opened = true := hopens
    unfold start
    split_ifs
    · exact h
    · exact h.openFile
  | join =>
    obtain ⟨-, rfl⟩ := of_ite_some hst
    exact ⟨fun _ => (Option.some_ne_none _).symm, fun hname => ⟨(h.filename hname).1, (Option.some_ne_none _).symm⟩⟩
  | writeBuffer renamed opened =>
    obtain ⟨k, b, -, -, rfl⟩ := writeBuffer_some hst
    obtain rfl : opened = true := hopens
    exact h.writeBuffer renamed b
  | finalWrite renamed opened =>
    obtain ⟨k, b, -, -, rfl⟩ := finalWrite_some hst
    obtain rfl : opened = true := hopens
    exact h.writeBuffer renamed b
  | stop | requestStop | lock _ _ | loadAccepting _ | append _ | checkStop | drain _ | endRound | recycle | finalDrain _
  | endDrain | finish =>
    rw [(logStep_frame hst).2.1 rfl]
    exact h

theorem run_ordered (c : LogConfig ι) : ∀ (tr : List (LogEvent ι)) (s : AsyncLogger ι), run (logStep c) {} tr = some s →
    EachStep (OneBuffer c) [] tr → (∀ e ∈ tr, e.opens = true) → LogInv Eq c s ∧ s.files.InOneFile c := by
  refine run_induct_of (OneBuffer c) (fun tr s => (∀ e ∈ tr, e.opens = true) → LogInv Eq c s ∧
    s.files.InOneFile c) ?_ ?_
  · intro _
    exact ⟨logInv_init arrangement_eq, fun _ => (Option.some_ne_none _).symm, fun _ =>
      ⟨rfl, (Option.some_ne_none _).symm⟩⟩
  · intro l s e t hl ih hone hst hopens
    obtain ⟨inv, hfile⟩ := ih fun e' he' => hopens e' (mem_append_left _ he')
    have hopen : e.opens = true := hopens e (mem_append_right _ (mem_singleton_self e))
    refine ⟨inv.step arrangement_eq hst (fun i hi => ?_) (fun p hp hhandle b => ?_), inOneFile_step hfile hopen hst⟩
    · rw [reverse_of_length_le_one (hone i hi s hl)]
    · rw [writes_opens hp hopen]
      exact hfile.output_writeBuffer hhandle p.1 b

/-- **Log order.** If every drain takes at most one buffer, the messages of a thread are written in the order in which
they were accepted, without gaps. -/
theorem log_order [DecidableEq ι] {tr : List (LogEvent ι)} (hrun : run (logStep c) {} tr = some s)
    (hone : EachStep (OneBuffer c) [] tr) (hopens : ∀ e ∈ tr, e.opens = true) (thread : ι) :
    s.files.output.filter (·.thread = thread) <+: s.accepted.filter (·.thread = thread) := by
  obtain ⟨inv, -⟩ := run_ordered c tr s hrun hone hopens
  have hstream := inv.stream (c.shardOf thread)
  -- the records of the thread are all in the part of its shard
  have hthread : ∀ l : List (Record ι), (l.filter (c.atShard (c.shardOf thread))).filter (·.thread = thread) =
      l.filter (·.thread = thread) := by
    intro l
    rw [filter_filter]
    refine filter_congr fun r _ => ?_
    by_cases hr : r.thread = thread
    · simp [LogConfig.atShard, hr]
    · simp [hr]
  rw [filter_append, append_assoc] at hstream
  rw [← hthread s.files.output, ← hthread s.accepted, hstream, filter_append]
  exact prefix_append _ _

end Model

def roundRun : List (LogEvent ℕ) :=
  [LogEvent.start true] ++ appendRun [1] ++ [LogEvent.checkStop] ++ [0, 1, 2, 3, 4, 5, 6, 7].map LogEvent.drain ++
    [LogEvent.endRound, .writeBuffer true true] ++ appendRun [2]

theorem log_order_roundRun : ∃ s ∈ run (logStep oneShard) {} roundRun, s.accepted.length = 2 ∧
    s.files.output = [shortRecord] ∧
    s.files.output.filter (·.thread = 0) <+: s.accepted.filter (·.thread = 0) := by
  have hfacts : ∃ s ∈ run (logStep oneShard) {} roundRun, s.accepted.length = 2 ∧ s.files.output = [shortRecord] := by
    decide +kernel
  have hone : EachStep (OneBuffer oneShard) [] roundRun := by decide +kernel
  have hopens : ∀ e ∈ roundRun, e.opens = true := by decide +kernel
  obtain ⟨s, hs, haccepted, houtput⟩ := hfacts
  exact ⟨s, hs, haccepted, houtput, log_order hs hone hopens 0⟩

/-! ## Two buffers -/

theorem fullRecord_ne : List.replicate kBufferSize (0 : UInt8) ≠ [] := by
  intro h
  exact absurd ((replicate_eq_nil_iff 0).1 h) (by decide)

def fullRecord : Record ℕ := ⟨0, List.replicate kBufferSize 0, fullRecord_ne⟩

theorem fullRecord_text : fullRecord.text.length = kBufferSize := by
  simp [Record.text, truncate, fullRecord]

theorem fullBuffer_eq : kBufferSize = (bytes [fullRecord]).length := by
  simp [bytes, fullRecord_text]

def fullBuffer : LogBuffer ℕ := ⟨[fullRecord], kBufferSize, fullBuffer_eq, le_rfl⟩

theorem fresh_append_full : LogBuffer.fresh.append fullRecord = some fullBuffer := by
  obtain ⟨b, hb⟩ := LogBuffer.append_of_empty (b := LogBuffer.fresh) rfl fullRecord
  have hrecords : b.records = [fullRecord] := LogBuffer.append_records hb
  have hcur : b.cur = kBufferSize := by rw [b.cur_eq, hrecords, ← fullBuffer_eq]
  rw [hb]
  exact congrArg some (LogBuffer.ext hrecords hcur)

def storedFirst (r : Record ℕ) (b : LogBuffer ℕ) : AsyncLogger ℕ where
  shards := Function.update (fun _ => {}) 0 { currentBuffer := some b }
  files := { handle := some .file }
  started := true
  accepting := true
  backend := .top
  accepted := [r]

theorem run_storedFirst {message : Bytes} {h : message ≠ []} {b : LogBuffer ℕ}
    (hb : LogBuffer.fresh.append ⟨0, message, h⟩ = some b) :
    run (logStep oneShard) {} ([.start true] ++ appendRun message) = some (storedFirst ⟨0, message, h⟩ b) := by
  simp [run, logStep, start, lock, loadAccepting, append,
    setShard, Shard.append, LogFiles.openFile, oneShard, appendRun, storedFirst, h, hb]

/-- a thread fills a buffer and appends another message, and then the logger is stopped -/
def reversedRun : List (LogEvent ℕ) :=
  [LogEvent.start true] ++ appendRun (List.replicate kBufferSize 0) ++ (appendRun [1] ++ stopRun 2)

/-- **Reversed.** A thread appends two messages, the first of which fills a buffer. The last drain takes the buffer of
the second message first, and that is how they are written. -/
theorem log_order_reversed : ∃ s, run (logStep oneShard) {} reversedRun = some s ∧ (∀ e ∈ reversedRun, e.opens = true) ∧
    s.started = false ∧ s.accepted = [fullRecord, shortRecord] ∧ s.files.output = [shortRecord, fullRecord] := by
  have hopens : ∀ e ∈ reversedRun, e.opens = true := by
    have hrest : ∀ e ∈ appendRun [1] ++ stopRun 2, e.opens = true := by decide +kernel
    exact forall_mem_append.2 ⟨by simp [appendRun, LogEvent.opens], hrest⟩
  have hfirst : run (logStep oneShard) {} ([.start true] ++ appendRun (List.replicate kBufferSize 0)) =
      some (storedFirst fullRecord fullBuffer) := run_storedFirst fresh_append_full
  have hrest : ∃ s, run (logStep oneShard) (storedFirst fullRecord fullBuffer) (appendRun [1] ++ stopRun 2) = some s ∧
      s.started = false ∧ s.accepted = [fullRecord, shortRecord] ∧ s.files.output = [shortRecord, fullRecord] :=
    ⟨_, rfl, rfl, rfl, rfl⟩
  obtain ⟨s, hrun, hfacts⟩ := hrest
  have hall := run_append (logStep oneShard) {} ([.start true] ++ appendRun (List.replicate kBufferSize 0))
    (appendRun [1] ++ stopRun 2)
  rw [hfirst, Option.bind_some, hrun] at hall
  exact ⟨s, hall, hopens, hfacts⟩

end Coropact.Log
