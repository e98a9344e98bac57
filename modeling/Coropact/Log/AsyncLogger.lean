/-
The logger (`src/log/async_logger.cc`, `include/coropact/log/log_buffer.h`).

Threads append messages to one of eight shards, chosen by the thread's id. A shard has a current buffer, a next one, and
a list of full ones, under a mutex. A backend thread drains the shards one after the other, each under its mutex, writes
the buffers to a file and keeps them as spares; the file is rotated when enough has been written to it. `Start` opens
the file and makes the backend thread; `Stop` clears `accepting_`, asks the backend to stop and joins it, and the
backend drains and writes once more before it returns.

A step is a part of a thread's code between two accesses that others can see: an appending thread locks the mutex of its
shard, loads `accepting_`, and then does the rest of `Append` and unlocks; the backend tests for a stop, drains a shard,
writes a buffer; `Stop` stores, asks, joins. Threads are of any type. `Start` and `Stop` are called by one thread at a
time.

A buffer is the sequence of the records that were appended to it since it was reset, and the number of their bytes; its
data are the texts of the records one after the other. `accepted` and `rejected` are the messages whose `Append` has
seen `accepting_` true and false.

Writes to a file succeed. Opening a file may fail, then standard output is used; so may the renaming of a rotated file,
then the file goes on. The names of rotated files differ, since `rotate_sequence_` is part of them.

Left out: `last_error_code_`, the name of a rotated file, notifications (a wait ends at any time).
-/
import Mathlib.Logic.Function.Basic
import Coropact.Core.Machine
import Coropact.Http.Ascii

namespace Coropact.Log

open Coropact.Machine List Option
open Coropact.Http (Bytes str)

/-! ## Model -/

def kBufferSize : ℕ := 64 * 1024
def kShardCount : ℕ := 8
def kTruncatedSuffix : Bytes := str "... [truncated]\n"

/-- a message that is not empty, and the thread that appends it -/
structure Record (ι : Type*) where
  thread : ι
  message : Bytes
  nonempty : message ≠ []
deriving DecidableEq, Repr

/-- what is written of a message -/
def truncate (message : Bytes) : Bytes :=
  if kBufferSize < message.length then
    message.take (if kBufferSize ≤ kTruncatedSuffix.length then 0 else kBufferSize - kTruncatedSuffix.length) ++
      kTruncatedSuffix
  else message

section Model

variable {ι : Type*}

def Record.text (r : Record ι) : Bytes := truncate r.message

def bytes (records : List (Record ι)) : Bytes := records.flatMap Record.text

theorem bytes_append (l₁ l₂ : List (Record ι)) : bytes (l₁ ++ l₂) = bytes l₁ ++ bytes l₂ := flatMap_append

/-- `LogBuffer<kBufferSize>` -/
@[ext]
structure LogBuffer (ι : Type*) where
  records : List (Record ι)
  cur : ℕ
  cur_eq : cur = (bytes records).length
  cur_le : cur ≤ kBufferSize

variable {b : LogBuffer ι} {r : Record ι} {message : Bytes}

namespace LogBuffer

theorem fresh_eq : 0 = (bytes ([] : List (Record ι))).length := rfl

def fresh : LogBuffer ι := ⟨[], 0, fresh_eq, Nat.zero_le _⟩

def avail (b : LogBuffer ι) : ℕ := kBufferSize - b.cur
def empty (b : LogBuffer ι) : Bool := b.cur == 0

def reset (_ : LogBuffer ι) : LogBuffer ι := fresh

theorem append_eq (b : LogBuffer ι) (r : Record ι) : b.cur + r.text.length = (bytes (b.records ++ [r])).length := by
  rw [bytes_append, length_append, ← b.cur_eq]
  simp [bytes]

theorem append_le (h : ¬ b.avail < r.text.length) : b.cur + r.text.length ≤ kBufferSize := by
  have hle := b.cur_le
  unfold avail at h
  omega

/-- `none` if the record does not fit -/
def append (b : LogBuffer ι) (r : Record ι) : Option (LogBuffer ι) :=
  if h : b.avail < r.text.length then none
  else some ⟨b.records ++ [r], b.cur + r.text.length, append_eq b r, append_le h⟩

end LogBuffer

/-- the thread in the critical section of a shard: before it loads `accepting_`, or after it has seen it true -/
inductive Holder (ι : Type*) where
  | entered (r : Record ι)
  | accepted (r : Record ι)

structure Shard (ι : Type*) where
  mutex : Option (Holder ι) := none
  currentBuffer : Option (LogBuffer ι) := some .fresh
  nextBuffer : Option (LogBuffer ι) := some .fresh
  buffers : List (LogBuffer ι) := []

/-- the rest of `Append`, with a new current buffer -/
def Shard.appendNext (sh : Shard ι) (full : LogBuffer ι) (r : Record ι) : Shard ι × Bool :=
  let next := sh.nextBuffer.getD .fresh
  let sh := { sh with mutex := none, buffers := sh.buffers ++ [full], nextBuffer := none }
  match next.append r with
  | some b => ({ sh with currentBuffer := some b }, false)
  | none => ({ sh with currentBuffer := some next }, true)

/-- `Append` after it has seen `accepting_` true, and whether the message is dropped; `none` if there is no current
buffer -/
def Shard.append (sh : Shard ι) (r : Record ι) : Option (Shard ι × Bool) :=
  match sh.currentBuffer with
  | none => none
  | some full =>
    match full.append r with
    | some b => some ({ sh with mutex := none, currentBuffer := some b }, false)
    | none => some (sh.appendNext full r)

/-- the current buffer joins the others, unless it is empty -/
def Shard.takeCurrent (sh : Shard ι) : Shard ι :=
  match sh.currentBuffer with
  | none => sh
  | some b => if b.empty then sh else { sh with currentBuffer := none, buffers := sh.buffers ++ [b] }

/-- a place for a buffer is filled with the last spare one, or with a new one -/
def refill (place : Option (LogBuffer ι)) (spare : List (LogBuffer ι)) : LogBuffer ι × List (LogBuffer ι) :=
  match place with
  | some b => (b, spare)
  | none => (spare.getLast?.getD .fresh, spare.dropLast)

/-- a shard after a drain, its places filled, and the spare buffers that are left -/
def Shard.drain (sh : Shard ι) (spare : List (LogBuffer ι)) : Shard ι × List (LogBuffer ι) :=
  let sh := sh.takeCurrent
  let current := refill sh.currentBuffer spare
  let next := refill sh.nextBuffer current.2
  ({ sh with buffers := [], currentBuffer := some current.1, nextBuffer := some next.1 }, next.2)

/-- after the last drain the places are not filled -/
def Shard.finalDrain (sh : Shard ι) : Shard ι := { sh.takeCurrent with buffers := [] }

/-! ### Files -/

/-- what `file_` points to -/
inductive Handle where
  | stdout
  | file
deriving DecidableEq, Repr

structure LogConfig (ι : Type*) where
  shardOf : ι → Fin kShardCount
  /-- `filename_.empty()` -/
  noFilename : Bool := false
  rollSize : ℕ := 10 * 1024 * 1024

structure LogFiles (ι : Type*) where
  rotated : List (List (Record ι)) := []
  file : List (Record ι) := []
  stdout : List (Record ι) := []
  handle : Option Handle := none
  writtenBytes : ℕ := 0

namespace LogFiles

/-- `opened` says if `fopen` succeeds -/
def openFile (c : LogConfig ι) (opened : Bool) (f : LogFiles ι) : LogFiles ι :=
  { f with handle := some (if c.noFilename then .stdout else if opened then .file else .stdout) }

def closeFile (f : LogFiles ι) : LogFiles ι := { f with handle := none }

/-- `renamed` says if `rename` succeeds -/
def rename (renamed : Bool) (f : LogFiles ι) : LogFiles ι :=
  if renamed then { f with rotated := f.rotated ++ [f.file], file := [] } else f

def rotateIfNeeded (c : LogConfig ι) (renamed opened : Bool) (f : LogFiles ι) : LogFiles ι :=
  if f.handle ≠ some .file ∨ c.noFilename then f
  else if f.writtenBytes < c.rollSize then f
  else { ((f.rename renamed).openFile c opened) with writtenBytes := 0 }

def write (b : LogBuffer ι) (f : LogFiles ι) : LogFiles ι :=
  match f.handle with
  | none => f
  | some .file => { f with file := f.file ++ b.records, writtenBytes := f.writtenBytes + b.cur }
  | some .stdout => { f with stdout := f.stdout ++ b.records, writtenBytes := f.writtenBytes + b.cur }

def writeBuffer (c : LogConfig ι) (renamed opened : Bool) (b : LogBuffer ι) (f : LogFiles ι) : LogFiles ι :=
  if f.handle = none ∨ b.empty then f else (f.rotateIfNeeded c renamed opened).write b

def output (f : LogFiles ι) : List (Record ι) := f.rotated.flatten ++ f.file ++ f.stdout

end LogFiles

/-! ### The logger -/

inductive BackendPc where
  | absent
  /-- `while (!stop_token.stop_requested())` -/
  | top
  /-- in the loop over the shards, the number of the next one -/
  | draining (shard : ℕ)
  /-- in the loop over the buffers to write, how many are written -/
  | writing (written : ℕ)
  | finalDraining (shard : ℕ)
  | finalWriting (written : ℕ)
  | returned
deriving DecidableEq, Repr

/-- the thread that calls `Start` and `Stop`: in `Stop`, before `request_stop` or before `join` -/
inductive ControlPc where
  | idle
  | stopping
  | joining
deriving DecidableEq, Repr

structure AsyncLogger (ι : Type*) where
  shards : Fin kShardCount → Shard ι := fun _ => {}
  files : LogFiles ι := {}
  started : Bool := false
  accepting : Bool := false
  stopRequested : Bool := false
  control : ControlPc := .idle
  backend : BackendPc := .absent
  buffersToWrite : List (LogBuffer ι) := []
  spareBuffers : List (LogBuffer ι) := []
  droppedMessages : ℕ := 0
  fault : Bool := false
  accepted : List (Record ι) := []
  rejected : List (Record ι) := []

inductive LogEvent (ι : Type*) where
  | start (opened : Bool)
  | stop
  | requestStop
  | join
  | lock (thread : ι) (message : Bytes)
  /-- the thread in the critical section of the shard loads `accepting_` -/
  | loadAccepting (shard : Fin kShardCount)
  | append (shard : Fin kShardCount)
  | checkStop
  | drain (shard : Fin kShardCount)
  | endRound
  | writeBuffer (renamed opened : Bool)
  | recycle
  | finalDrain (shard : Fin kShardCount)
  | endDrain
  | finalWrite (renamed opened : Bool)
  | finish
deriving DecidableEq, Repr

namespace AsyncLogger

def setShard (s : AsyncLogger ι) (i : Fin kShardCount) (sh : Shard ι) : AsyncLogger ι :=
  { s with shards := Function.update s.shards i sh }

def start (c : LogConfig ι) (opened : Bool) (s : AsyncLogger ι) : AsyncLogger ι :=
  if s.started then s
  else { s with
    files := s.files.openFile c opened
    started := true
    accepting := true
    stopRequested := false
    backend := .top
    buffersToWrite := []
    spareBuffers := [] }

def stop (s : AsyncLogger ι) : AsyncLogger ι :=
  if s.started then { s with accepting := false, control := .stopping } else s

def join (s : AsyncLogger ι) : AsyncLogger ι :=
  { s with files := s.files.closeFile, started := false, control := .idle, backend := .absent }

/-- an empty message is not appended -/
def lock (c : LogConfig ι) (thread : ι) (message : Bytes) (s : AsyncLogger ι) : Option (AsyncLogger ι) :=
  if h : message ≠ [] then
    let i := c.shardOf thread
    match (s.shards i).mutex with
    | none => some (s.setShard i { s.shards i with mutex := some (.entered ⟨thread, message, h⟩) })
    | some _ => none
  else some s

def loadAccepting (i : Fin kShardCount) (r : Record ι) (s : AsyncLogger ι) : AsyncLogger ι :=
  if s.accepting then
    { s.setShard i { s.shards i with mutex := some (.accepted r) } with accepted := s.accepted ++ [r] }
  else
    { s.setShard i { s.shards i with mutex := none } with
      droppedMessages := s.droppedMessages + 1
      rejected := s.rejected ++ [r] }

def append (i : Fin kShardCount) (r : Record ι) (s : AsyncLogger ι) : AsyncLogger ι :=
  match (s.shards i).append r with
  | none => { s with fault := true }
  | some (sh, dropped) =>
    { s.setShard i sh with droppedMessages := if dropped then s.droppedMessages + 1 else s.droppedMessages }

/-- the buffers of the shard are taken from the back -/
def drain (i : Fin kShardCount) (s : AsyncLogger ι) : AsyncLogger ι :=
  { s.setShard i ((s.shards i).drain s.spareBuffers).1 with
    buffersToWrite := s.buffersToWrite ++ (s.shards i).takeCurrent.buffers.reverse
    spareBuffers := ((s.shards i).drain s.spareBuffers).2
    backend := .draining (i + 1) }

def finalDrain (i : Fin kShardCount) (s : AsyncLogger ι) : AsyncLogger ι :=
  { s.setShard i (s.shards i).finalDrain with
    buffersToWrite := s.buffersToWrite ++ (s.shards i).takeCurrent.buffers.reverse
    backend := .finalDraining (i + 1) }

/-- if there is nothing to write the backend waits -/
def endRound (s : AsyncLogger ι) : AsyncLogger ι :=
  { s with backend := if s.buffersToWrite.isEmpty then .top else .writing 0 }

/-- the buffers are reset and kept, the last one first -/
def recycle (s : AsyncLogger ι) : AsyncLogger ι :=
  { s with
    spareBuffers := s.spareBuffers ++ s.buffersToWrite.reverse.map LogBuffer.reset
    buffersToWrite := []
    backend := .top }

/-- `ThreadFunc` returns, and its variables are gone -/
def finish (s : AsyncLogger ι) : AsyncLogger ι :=
  { s with buffersToWrite := [], spareBuffers := [], backend := .returned }

end AsyncLogger

def logStep (c : LogConfig ι) (s : AsyncLogger ι) : LogEvent ι → Option (AsyncLogger ι)
  | .start opened => if s.control = .idle then some (s.start c opened) else none
  | .stop => if s.control = .idle then some s.stop else none
  | .requestStop => if s.control = .stopping then some { s with stopRequested := true, control := .joining } else none
  | .join => if s.control = .joining ∧ s.backend = .returned then some s.join else none
  | .lock thread message => s.lock c thread message
  | .loadAccepting i =>
    match (s.shards i).mutex with
    | some (.entered r) => some (s.loadAccepting i r)
    | _ => none
  | .append i =>
    match (s.shards i).mutex with
    | some (.accepted r) => some (s.append i r)
    | _ => none
  | .checkStop =>
    if s.backend = .top then some { s with backend := if s.stopRequested then .finalDraining 0 else .draining 0 }
      else none
  | .drain i => if s.backend = .draining i ∧ (s.shards i).mutex.isNone then some (s.drain i) else none
  | .endRound => if s.backend = .draining kShardCount then some s.endRound else none
  | .writeBuffer renamed opened =>
    match s.backend with
    | .writing k => (s.buffersToWrite[k]?).map fun b =>
      { s with files := s.files.writeBuffer c renamed opened b, backend := .writing (k + 1) }
    | _ => none
  | .recycle => if s.backend = .writing s.buffersToWrite.length then some s.recycle else none
  | .finalDrain i => if s.backend = .finalDraining i ∧ (s.shards i).mutex.isNone then some (s.finalDrain i) else none
  | .endDrain => if s.backend = .finalDraining kShardCount then some { s with backend := .finalWriting 0 } else none
  | .finalWrite renamed opened =>
    match s.backend with
    | .finalWriting k => (s.buffersToWrite[k]?).map fun b =>
      { s with files := s.files.writeBuffer c renamed opened b, backend := .finalWriting (k + 1) }
    | _ => none
  | .finish => if s.backend = .finalWriting s.buffersToWrite.length then some s.finish else none

/-! ## Buffers and shards -/

theorem truncate_length_le (message : Bytes) : (truncate message).length ≤ kBufferSize := by
  unfold truncate
  split_ifs with hlong hsuffix
  · exact absurd hsuffix (by decide)
  · rw [length_append, length_take]
    omega
  · exact not_lt.1 hlong

theorem truncate_ne_nil (h : message ≠ []) : truncate message ≠ [] := by
  unfold truncate
  split_ifs
  · exact append_ne_nil_of_right_ne_nil _ (by decide)
  · exact append_ne_nil_of_right_ne_nil _ (by decide)
  · exact h

namespace LogBuffer

theorem empty_iff (b : LogBuffer ι) : b.empty = true ↔ b.records = [] := by
  unfold empty
  rw [beq_iff_eq, b.cur_eq, length_eq_zero_iff]
  constructor
  · intro hbytes
    cases hrecords : b.records with
    | nil => rfl
    | cons r l =>
      rw [hrecords, bytes, flatMap_cons] at hbytes
      exact absurd (append_eq_nil_iff.1 hbytes).1 (truncate_ne_nil r.nonempty)
  · intro hrecords
    rw [hrecords]
    rfl

theorem append_records {b' : LogBuffer ι} (h : b.append r = some b') : b'.records = b.records ++ [r] := by
  unfold append at h
  split_ifs at h
  rw [← some.inj h]

theorem append_of_empty (h : b.records = []) (r : Record ι) : ∃ b', b.append r = some b' := by
  have hcur : b.cur = 0 := beq_iff_eq.1 (b.empty_iff.2 h)
  have hroom : ¬ b.avail < r.text.length := by
    have hle := truncate_length_le r.message
    unfold avail Record.text
    omega
  exact ⟨_, dif_neg hroom⟩

end LogBuffer

/-- the record of a message that has been accepted and is not yet in a buffer -/
def Holder.pending : Holder ι → List (Record ι)
  | .entered _ => []
  | .accepted r => [r]

def Holder.record : Holder ι → Record ι
  | .entered r | .accepted r => r

namespace Shard

/-- the records in the buffers of the shard, the oldest first -/
def stored (sh : Shard ι) : List (Record ι) :=
  sh.buffers.flatMap LogBuffer.records ++ (sh.currentBuffer.map LogBuffer.records).getD []

def pending (sh : Shard ι) : List (Record ι) := sh.stored ++ (sh.mutex.map Holder.pending).getD []

theorem takeCurrent_stored (sh : Shard ι) : sh.takeCurrent.buffers.flatMap LogBuffer.records = sh.stored := by
  unfold stored
  fun_cases takeCurrent sh with
  | case1 hcurrent => simp [hcurrent]
  | case2 b hcurrent hempty => simp [hcurrent, b.empty_iff.1 hempty]
  | case3 b hcurrent => simp [hcurrent]

theorem takeCurrent_current (sh : Shard ι) (h : sh.takeCurrent.currentBuffer = some b) :
    b.records = [] ∧ sh.currentBuffer = some b := by
  revert h
  fun_cases takeCurrent sh <;> intro h
  case case1 hcurrent => cases hcurrent.symm.trans h
  case case2 b' hcurrent hempty =>
    cases hcurrent.symm.trans h
    exact ⟨b.empty_iff.1 hempty, hcurrent⟩
  case case3 => cases h

theorem takeCurrent_rest (sh : Shard ι) :
    sh.takeCurrent.nextBuffer = sh.nextBuffer ∧ sh.takeCurrent.mutex = sh.mutex := by
  fun_cases takeCurrent sh <;> exact ⟨rfl, rfl⟩

theorem append_some {sh sh' : Shard ι} {dropped : Bool} (h : sh.append r = some (sh', dropped))
    (hnext : ∀ b, sh.nextBuffer = some b → b.records = []) :
    dropped = false ∧ sh'.stored = sh.stored ++ [r] ∧ sh'.mutex = none ∧ sh'.currentBuffer ≠ none ∧
      ∀ b, sh'.nextBuffer = some b → b.records = [] := by
  revert h
  fun_cases append sh r <;> intro h
  case case1 => cases h
  case case2 full hcurrent b hb =>
    cases h
    refine ⟨rfl, ?_, rfl, some_ne_none _, hnext⟩
    simp [stored, hcurrent, LogBuffer.append_records hb]
  case case3 full hcurrent _ =>
    have hfresh : (sh.nextBuffer.getD .fresh).records = [] := by
      cases hn : sh.nextBuffer with
      | none => rfl
      | some b => exact hnext b hn
    obtain ⟨b, hb⟩ := LogBuffer.append_of_empty hfresh r
    simp only [appendNext, hb, some.injEq] at h
    cases h
    refine ⟨rfl, ?_, rfl, some_ne_none _, fun b hb => by cases hb⟩
    simp [stored, hcurrent, LogBuffer.append_records hb, hfresh]

theorem append_eq_none {sh : Shard ι} (h : sh.append r = none) : sh.currentBuffer = none := by
  revert h
  fun_cases append sh r <;> intro h
  case case1 hcurrent => exact hcurrent
  all_goals cases h

end Shard

theorem refill_place {place : Option (LogBuffer ι)} {spare : List (LogBuffer ι)}
    (hplace : ∀ b, place = some b → b.records = []) (hspare : ∀ b ∈ spare, b.records = []) :
    (refill place spare).1.records = [] ∧ ∀ b ∈ (refill place spare).2, b.records = [] := by
  unfold refill
  split
  · exact ⟨hplace _ rfl, hspare⟩
  · refine ⟨?_, fun b hb => hspare b (dropLast_subset _ hb)⟩
    cases hlast : spare.getLast? with
    | none => rfl
    | some b => exact hspare b (mem_of_getLast? hlast)

/-! ## Steps -/

section Steps

variable {c : LogConfig ι} {s t : AsyncLogger ι}

theorem lock_some {thread : ι} (h : logStep c s (.lock thread message) = some t) :
    t = s ∨ ∃ hne : message ≠ [], (s.shards (c.shardOf thread)).mutex = none ∧
      t = s.setShard (c.shardOf thread)
        { s.shards (c.shardOf thread) with mutex := some (.entered ⟨thread, message, hne⟩) } := by
  simp only [logStep, AsyncLogger.lock] at h
  split_ifs at h with hne
  · split at h
    · exact .inr ⟨hne, ‹_›, (some.inj h).symm⟩
    · cases h
  · exact .inl (some.inj h).symm

theorem loadAccepting_some {i : Fin kShardCount} (h : logStep c s (.loadAccepting i) = some t) :
    ∃ r, (s.shards i).mutex = some (.entered r) ∧ t = s.loadAccepting i r := by
  simp only [logStep] at h
  split at h
  · exact ⟨_, ‹_›, (some.inj h).symm⟩
  · cases h

theorem append_some {i : Fin kShardCount} (h : logStep c s (.append i) = some t) :
    ∃ r, (s.shards i).mutex = some (.accepted r) ∧ t = s.append i r := by
  simp only [logStep] at h
  split at h
  · exact ⟨_, ‹_›, (some.inj h).symm⟩
  · cases h

theorem writeBuffer_some {renamed opened : Bool} (h : logStep c s (.writeBuffer renamed opened) = some t) :
    ∃ k b, s.backend = .writing k ∧ s.buffersToWrite[k]? = some b ∧
      t = { s with files := s.files.writeBuffer c renamed opened b, backend := .writing (k + 1) } := by
  simp only [logStep] at h
  split at h
  · obtain ⟨b, hb, rfl⟩ := map_eq_some_iff.1 h
    exact ⟨_, b, ‹_›, hb, rfl⟩
  · cases h

theorem finalWrite_some {renamed opened : Bool} (h : logStep c s (.finalWrite renamed opened) = some t) :
    ∃ k b, s.backend = .finalWriting k ∧ s.buffersToWrite[k]? = some b ∧
      t = { s with files := s.files.writeBuffer c renamed opened b, backend := .finalWriting (k + 1) } := by
  simp only [logStep] at h
  split at h
  · obtain ⟨b, hb, rfl⟩ := map_eq_some_iff.1 h
    exact ⟨_, b, ‹_›, hb, rfl⟩
  · cases h

def LogEvent.inShard : LogEvent ι → Bool
  | .lock _ _ | .loadAccepting _ | .append _ | .drain _ | .finalDrain _ => true
  | _ => false

def LogEvent.onFiles : LogEvent ι → Bool
  | .start _ | .join | .writeBuffer _ _ | .finalWrite _ _ => true
  | _ => false

/-- the event is not one of the backend, and does not make or join it -/
def LogEvent.ofOthers : LogEvent ι → Bool
  | .stop | .requestStop | .lock _ _ | .loadAccepting _ | .append _ => true
  | _ => false

/-- **Frame.** What a step leaves as it is. -/
theorem logStep_frame {e : LogEvent ι} (hst : logStep c s e = some t) :
    (e.inShard = false →
      t.shards = s.shards ∧ t.accepted = s.accepted ∧ t.rejected = s.rejected ∧ t.fault = s.fault) ∧
    (e.onFiles = false → t.files = s.files) ∧ (e.ofOthers = true → t.backend = s.backend) := by
  refine ⟨fun h => ?_, fun h => ?_, fun h => ?_⟩
  · cases e with
    | lock | loadAccepting | append | drain | finalDrain => cases h
    | start opened =>
      obtain ⟨-, rfl⟩ := of_ite_some hst
      fun_cases AsyncLogger.start c opened s <;> exact ⟨rfl, rfl, rfl, rfl⟩
    | stop =>
      obtain ⟨-, rfl⟩ := of_ite_some hst
      fun_cases AsyncLogger.stop s <;> exact ⟨rfl, rfl, rfl, rfl⟩
    | writeBuffer =>
      obtain ⟨k, b, -, -, rfl⟩ := writeBuffer_some hst
      exact ⟨rfl, rfl, rfl, rfl⟩
    | finalWrite =>
      obtain ⟨k, b, -, -, rfl⟩ := finalWrite_some hst
      exact ⟨rfl, rfl, rfl, rfl⟩
    | _ =>
      obtain ⟨-, rfl⟩ := of_ite_some hst
      exact ⟨rfl, rfl, rfl, rfl⟩
  all_goals cases e with
    | start | join | writeBuffer | finalWrite => cases h
    | lock thread message => rcases lock_some hst with rfl | ⟨-, -, rfl⟩ <;> rfl
    | loadAccepting i =>
      obtain ⟨r, -, rfl⟩ := loadAccepting_some hst
      fun_cases AsyncLogger.loadAccepting i r s <;> rfl
    | append i =>
      obtain ⟨r, -, rfl⟩ := append_some hst
      fun_cases AsyncLogger.append i r s <;> rfl
    | stop =>
      obtain ⟨-, rfl⟩ := of_ite_some hst
      fun_cases AsyncLogger.stop s <;> rfl
    | _ =>
      obtain ⟨-, rfl⟩ := of_ite_some hst
      first | rfl | cases h

end Steps

end Model

end Coropact.Log
