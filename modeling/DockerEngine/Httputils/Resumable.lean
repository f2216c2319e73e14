import DockerEngine.Lib.Bytes
import DockerEngine.Lib.Trace

/-!
# Reading a body over several requests

`Read` of `pkg/httputils/resumablerequestreader.go`. The reader counts the bytes it has returned and asks for those
behind them when it needs another response. The server gives a range with status 206 and the whole body without one.
`read_resumes`: what has been returned is always the beginning of the body, and all of it at the end.
-/

namespace DockerEngine.Httputils

open Trace List

/-- A response, with what has not been read of its body. -/
structure Response where
  statusCode : Nat
  contentLength : Int
  body : Bytes

structure Reader where
  lastRange : Nat
  totalSize : Int
  currentResponse : Option Response
  failures : UInt32
  maxFailures : UInt32

/-- The errors of `Read`, of a request and of the body of a response. -/
inductive Err where
  | eof
  | request
  | noByteRanges
  | noContentLength
  | connection
  deriving DecidableEq

/-- The server's answer. The request has a range unless `lastRange` is 0. -/
def serve (body : Bytes) (lastRange : Nat) : Response :=
  ⟨if lastRange = 0 then 200 else 206, (body.drop lastRange).length, body.drop lastRange⟩

/-- The response that is read, the current one or a new one. -/
def Reader.response (r : Reader) (body : Bytes) : Response := r.currentResponse.getD (serve body r.lastRange)

/-- What happens in a call: whether its request fails, how many bytes come from the body, and the error with them. -/
structure Fate where
  fails : Bool
  n : Nat
  err : Option Err

/-- `Read`: what it returns, and the reader after it. -/
def Reader.read (r : Reader) (body : Bytes) (f : Fate) : (Bytes × Option Err) × Reader :=
  let isFreshRequest := r.currentResponse.isNone
  let cleaned := { r with currentResponse := none }
  if isFreshRequest ∧ f.fails then
    if r.failures + 1 ≠ r.maxFailures then (([], none), { r with failures := r.failures + 1 })
    else (([], some .request), r)
  else
    let resp := r.response body
    if resp.statusCode = 416 ∧ r.lastRange = r.totalSize ∧ resp.contentLength = 0 then (([], some .eof), cleaned)
    else if resp.statusCode ≠ 206 ∧ r.lastRange ≠ 0 ∧ isFreshRequest then (([], some .noByteRanges), cleaned)
    else if r.totalSize < 0 then (([], some .noContentLength), cleaned)
    else
      ((resp.body.take f.n, if f.err = some .eof then some .eof else none),
        { r with
          lastRange := r.lastRange + (resp.body.take f.n).length
          totalSize := if r.totalSize = 0 then resp.contentLength else r.totalSize
          currentResponse := if f.err = none then some { resp with body := resp.body.drop f.n } else none })

/-- The reader, the bytes it has returned, and the last error. -/
structure State where
  reader : Reader
  returned : Bytes
  err : Option Err

/-- One call. A body says that it has come to its end only when it has. -/
def step (body : Bytes) (st : State) (f : Fate) : Option State :=
  let ((b, err), r) := st.reader.read body f
  if f.err = some .eof → (st.reader.response body).body.length ≤ f.n then
    some ⟨r, st.returned ++ b, err⟩
  else none

/-- A response goes on where the returned bytes end. -/
def Inv (body : Bytes) (st : State) : Prop :=
  st.returned = body.take st.reader.lastRange ∧ st.reader.lastRange ≤ body.length ∧
    (st.err = some .eof → st.returned = body) ∧
    ∀ resp, st.reader.currentResponse = some resp → resp.statusCode ≠ 416 ∧ resp.body = body.drop st.reader.lastRange

theorem Inv.step {body : Bytes} {st st' : State} {f : Fate} (h : Inv body st) (hstep : step body st f = some st') :
    Inv body st' := by
  obtain ⟨hreturned, hle, heof, hresp⟩ := h
  have hnext : (st.reader.response body).statusCode ≠ 416 ∧
      (st.reader.response body).body = body.drop st.reader.lastRange := by
    unfold Reader.response
    cases hc : st.reader.currentResponse with
    | none => exact ⟨by simp [serve]; split <;> simp, rfl⟩
    | some resp => exact hresp resp hc
  simp only [Httputils.step, Reader.read] at hstep
  generalize st.reader.response body = resp at *
  have htake : st.returned ++ resp.body.take f.n = body.take (st.reader.lastRange + (resp.body.take f.n).length) := by
    rw [hreturned, hnext.2, take_add]
    simp
  split at hstep <;> cases hstep
  split_ifs <;> simp_all [Inv] <;> omega

/-- **Nothing is lost or repeated**, whatever fails, with or without a first response. -/
theorem read_resumes (body : Bytes) (totalSize : Int) (maxFailures : UInt32) (initial : Bool) (fates : List Fate) :
    Along (step body) (fun st _ => st.returned <+: body ∧ (st.err = some .eof → st.returned = body))
      ⟨⟨0, totalSize, if initial then some (serve body 0) else none, 0, maxFailures⟩, [], none⟩ fates := by
  refine along_of_kept (fun _ _ _ => Inv.step) (fun st _ _ h _ => ?_) ?_
  · exact ⟨h.1 ▸ take_prefix _ _, h.2.2.1⟩
  · cases initial <;> simp [Inv, serve]

end DockerEngine.Httputils
