/-
HTTP/1 responses as text. Nothing here is translated from the source: it says what a well-formed response is and where
its body ends, which is what the relay of the gateway is measured against.

A head is a status line and header lines, CR and LF standing only in the CRLF that ends a line. `BodyOf` says which
bytes are the body of a final response to a request method: none for HEAD, 204 and 304; a well-formed chunked body; or
as many bytes as every Content-Length field says. A response without such framing ends with its connection only and has
no `BodyOf`.
-/
import Coropact.Core.Text
import Coropact.Http.Request

namespace Coropact.Http

open Coropact.Text

/-! ## Heads -/

structure ResponseHead where
  version : Bytes
  code : Bytes
  reason : Bytes
  lines : List Bytes
  version_ok : version.length = 8 ∧ Clean version
  code_ok : code.length = 3 ∧ ∀ b ∈ code, isDigit b = true
  reason_ok : Clean reason
  lines_ok : ∀ l ∈ lines, l ≠ [] ∧ Clean l

theorem http11_ok : (str "HTTP/1.1").length = 8 ∧ Clean (str "HTTP/1.1") := by decide

/-- name and value of a header line, in lower case and without blanks around the value -/
def lineField (line : Bytes) : Option (Bytes × Bytes) :=
  (cutAt colon line).map fun nv => (lowerCopy nv.1, trimBlanks nv.2)

def PlainDecimal (v : Bytes) (n : ℕ) : Prop := v ≠ [] ∧ (∀ b ∈ v, isDigit b = true) ∧ decimal v = n

instance (v : Bytes) (n : ℕ) : Decidable (PlainDecimal v n) := by
  unfold PlainDecimal
  infer_instance

def elements (v : Bytes) : List Bytes := (pieces comma v).map fun e => lowerCopy (trimBlanks e)

namespace ResponseHead

def statusLine (h : ResponseHead) : Bytes := h.version ++ SP :: (h.code ++ h.reason)

def status (h : ResponseHead) : ℕ := decimal h.code

def bytes (h : ResponseHead) : Bytes := ((h.statusLine :: h.lines).map (· ++ CRLF)).flatten ++ CRLF

def values (h : ResponseHead) (name : Bytes) : List Bytes :=
  h.lines.filterMap fun l => (lineField l).bind fun nv => if nv.1 = name then some nv.2 else none

def Interim (h : ResponseHead) : Prop := 100 ≤ h.status ∧ h.status < 200

instance (h : ResponseHead) : Decidable h.Interim := by
  unfold Interim
  infer_instance

def Chunked (h : ResponseHead) : Prop :=
  ∃ v ∈ (h.values (str "transfer-encoding")).getLast?, (elements v).getLast? = some (str "chunked")

/-- the upstream says that it closes the connection after this response -/
def Closes (h : ResponseHead) : Prop := ∃ v ∈ h.values (str "connection"), str "close" ∈ elements v

def Bodyless (m : Method) (h : ResponseHead) : Prop := m = .head ∨ h.status = 204 ∨ h.status = 304

instance (m : Method) (h : ResponseHead) : Decidable (Bodyless m h) := by
  unfold Bodyless
  infer_instance

end ResponseHead

/-! ## Chunked bodies -/

def hexValue (b : UInt8) : Option ℕ :=
  if 48 ≤ b ∧ b ≤ 57 then some (b.toNat - 48)
  else if 65 ≤ b ∧ b ≤ 70 then some (b.toNat - 55)
  else if 97 ≤ b ∧ b ≤ 102 then some (b.toNat - 87)
  else none

/-- a chunk size: one or more hexadecimal digits -/
def ChunkSize (s : Bytes) (n : ℕ) : Prop :=
  s ≠ [] ∧ (∀ b ∈ s, (hexValue b).isSome) ∧ s.foldl (fun n b => 16 * n + (hexValue b).getD 0) 0 = n

instance (s : Bytes) (n : ℕ) : Decidable (ChunkSize s n) := by
  unfold ChunkSize
  infer_instance

/-- what may follow a chunk size on its line: nothing, or an extension behind a semicolon or a blank -/
def ChunkExt (e : Bytes) : Prop := Clean e ∧ ∀ b ∈ e.head?, b = 59 ∨ isBlank b = true

instance (e : Bytes) : Decidable (ChunkExt e) := by
  unfold ChunkExt
  infer_instance

inductive ChunkedBody : Bytes → Prop
  | last (size ext : Bytes) (trailers : List Bytes) (hsize : ChunkSize size 0) (hext : ChunkExt ext)
      (htrailers : ∀ l ∈ trailers, l ≠ [] ∧ Clean l) :
      ChunkedBody (size ++ ext ++ CRLF ++ ((trailers.map (· ++ CRLF)).flatten ++ CRLF))
  | chunk (size ext data rest : Bytes) (hsize : ChunkSize size data.length) (hext : ChunkExt ext) (hdata : data ≠ [])
      (hrest : ChunkedBody rest) : ChunkedBody (size ++ ext ++ CRLF ++ (data ++ CRLF ++ rest))

/-! ## Whole responses -/

def BodyOf (m : Method) (h : ResponseHead) (body : Bytes) : Prop :=
  if h.Bodyless m then body = []
  else
    h.Chunked ∧ h.values (str "content-length") = [] ∧ ChunkedBody body ∨
      h.values (str "transfer-encoding") = [] ∧ h.values (str "content-length") ≠ [] ∧
        ∀ v ∈ h.values (str "content-length"), PlainDecimal v body.length

/-- exactly one final response that shows its own end -/
def CompleteResponse (m : Method) (s : Bytes) : Prop :=
  ∃ (h : ResponseHead) (body : Bytes), s = h.bytes ++ body ∧ ¬ h.Interim ∧ BodyOf m h body

/-- a complete response behind any number of interim ones -/
inductive CompleteAnswer (m : Method) : Bytes → Prop
  | final (s : Bytes) (h : CompleteResponse m s) : CompleteAnswer m s
  | interim (h : ResponseHead) (rest : Bytes) (hinterim : h.Interim) (hrest : CompleteAnswer m rest) :
      CompleteAnswer m (h.bytes ++ rest)

end Coropact.Http
