import DockerEngine.Lib.Bytes
import DockerEngine.Lib.Reading

/-!
# Two streams over one connection

Package `stdcopy` carries the output streams of a container over one connection. A `StdWriter` puts a header in
front of each piece that is written: the number of the stream, and the length of the piece. `StdCopy` reads the
connection into one buffer and takes the frames apart again: it keeps what it has read of the next frames in the
buffer, makes the buffer larger for a frame that does not fit, and moves the rest to the front after each frame.

**The law** (`stdCopy_delivers`): whatever was written, wherever the connection ended and however its bytes were
cut into reads, `StdCopy` delivers the pieces of all frames that arrived as a whole, each on its own side, counts
them, and reports no error.

**What it does not establish.** Nothing is said of a connection that carries anything but frames, of reads that
fail, nor of destinations that take less than they are given; the model has these cases, each with its error.
An `int` has 64 bits here. The count is an `int64`: it is the number of the bytes while that is below `2 ^ 63`.
-/

namespace DockerEngine.Stdcopy

open Reading Loop UInt8

/-! ## Writers -/

/-- What a write did: how much it took, its error, and the destination behind it. -/
structure Wrote (τ ε : Type) where
  n : Nat
  err : Option ε
  dst : τ

/-- `io.Writer`. -/
abbrev Writer (τ ε : Type) : Type := τ → Bytes → Wrote τ ε

/-- What can go wrong: an error of the connection or of a destination, or one of the package's own. -/
inductive Error (ε : Type) where
  | io (e : ε)
  | notInstantiated
  | invalidStdHeader
  | shortWrite
  deriving DecidableEq, Repr

/-- The text of an error. -/
def Error.text {ε : Type} (io : ε → String) : Error ε → String
  | .io e => io e
  | .notInstantiated => "Writer not instantiated"
  | .invalidStdHeader => "Unrecognized input header"
  | .shortWrite => "short write"

/-- `StdWriterPrefixLen`. -/
def stdWriterPrefixLen : Nat := 8

/-- `StdWriterSizeIndex`. -/
def stdWriterSizeIndex : Nat := 4

/-- `StdType`: the header of a stream, with room for the size. -/
abbrev StdType : Type := Vector UInt8 8

/-- The three streams. -/
inductive Std where
  | stdin
  | stdout
  | stderr
  deriving DecidableEq, Repr

/-- The first byte of a header. -/
def Std.fd : Std → UInt8
  | .stdin => 0
  | .stdout => 1
  | .stderr => 2

/-- `Stdin`, `Stdout` and `Stderr`. -/
def Std.header (t : Std) : StdType := #v[t.fd, 0, 0, 0, 0, 0, 0, 0]

/-- `binary.BigEndian.PutUint32`, as the four bytes it puts. -/
def bigEndian (n : UInt32) : Bytes :=
  [ofNat (n.toNat / 2 ^ 24), ofNat (n.toNat / 2 ^ 16), ofNat (n.toNat / 2 ^ 8), ofNat n.toNat]

/-- `binary.BigEndian.Uint32`. -/
def uint32 : Bytes → UInt32
  | a :: b :: c :: d :: _ =>
    UInt32.ofNat (a.toNat * 2 ^ 24 + b.toNat * 2 ^ 16 + c.toNat * 2 ^ 8 + d.toNat)
  | _ => 0

/-- `binary.BigEndian.PutUint32(h[4:], n)`. -/
def StdType.putSize (h : StdType) (n : UInt32) : StdType :=
  (((h.set 4 (ofNat (n.toNat / 2 ^ 24))).set 5 (ofNat (n.toNat / 2 ^ 16))).set 6
    (ofNat (n.toNat / 2 ^ 8))).set 7 (ofNat n.toNat)

/-- `StdWriter`. The writer behind it may be missing. -/
structure StdWriter (τ ε : Type) where
  writer : Option (Writer τ ε)
  header : StdType

/-- `NewStdWriter`. -/
def newStdWriter {τ ε : Type} (w : Writer τ ε) (t : StdType) : StdWriter τ ε := ⟨some w, t⟩

/-- `StdWriter.Write`: its result, and the writer with the header it has put together. -/
def StdWriter.write {τ ε : Type} (w : Option (StdWriter τ ε)) (s : τ) (buf : Bytes) :
    Wrote τ (Error ε) × Option (StdWriter τ ε) :=
  match w with
  | none => (⟨0, some .notInstantiated, s⟩, none)
  | some w =>
    match w.writer with
    | none => (⟨0, some .notInstantiated, s⟩, some w)
    | some write =>
      let header := w.header.putSize (UInt32.ofNat buf.length)
      let w' : StdWriter τ ε := ⟨some write, header⟩
      let r₁ := write s header.toList
      -- a count below zero is reported as zero
      match r₁.err with
      | some e => (⟨r₁.n - stdWriterPrefixLen, some (.io e), r₁.dst⟩, some w')
      | none =>
        let r₂ := write r₁.dst buf
        (⟨r₁.n + r₂.n - stdWriterPrefixLen, r₂.err.map .io, r₂.dst⟩, some w')

/-! ## Copying -/

/-- What `StdCopy` returns, and the destinations behind it. -/
structure StdCopied (τ ε : Type) where
  written : Int64
  err : Option (Error ε)
  dst : τ
  deriving DecidableEq

/-- The variables of `StdCopy`: the part of the buffer that holds data and the source, the length of the
buffer, the count, and the destinations. -/
structure State (σ τ : Type) where
  buf : Pending σ UInt8
  bufLen : Nat
  written : Int64
  dst : τ

variable {σ τ ε : Type} (t : Std)

/-- Where the data of a frame goes, by the first byte of its header. -/
def selectOut (dstout dsterr : Writer τ ε) (fd : UInt8) : Option (Writer τ ε) :=
  if fd = 0 ∨ fd = 1 then some dstout
  else if fd = 2 then some dsterr
  else none

section

variable (buf : Bytes) (read : Reader σ UInt8 ε)

/-- The size that a header gives. -/
def frameSize : Nat := (uint32 ((buf.drop stdWriterSizeIndex).take 4)).toNat

/-- The length of the buffer once a frame fits in. -/
def extend (bufLen frameSize : Nat) : Nat :=
  if bufLen < frameSize + stdWriterPrefixLen then
    bufLen + (frameSize + stdWriterPrefixLen - bufLen + 1)
  else bufLen

/-- The second half of a round: the frame is read, written, and taken off the buffer. -/
def copyFrame (rounds : Nat) (out : Writer τ ε) (size : Nat) (st : State σ τ) : State σ τ ⊕ Option (StdCopied τ ε) :=
  match fill read st.bufLen (size + stdWriterPrefixLen) rounds st.buf with
  | none => .inr none
  | some (.short, _) => .inr (some ⟨st.written, none, st.dst⟩)
  | some (.failed e, _) => .inr (some ⟨0, some (.io e), st.dst⟩)
  | some (.full, b) =>
    let w := out st.dst ((b.data.take (size + stdWriterPrefixLen)).drop stdWriterPrefixLen)
    match w.err with
    | some e => .inr (some ⟨0, some (.io e), w.dst⟩)
    | none =>
      if w.n ≠ size then .inr (some ⟨0, some .shortWrite, w.dst⟩)
      else .inl
        { st with
          buf := ⟨b.data.drop (size + stdWriterPrefixLen), b.src⟩
          written := st.written + Int64.ofNat w.n
          dst := w.dst }

/-- One round of the outer loop of `StdCopy`. A result that is missing stands for an inner loop that has not
come to its end in so many rounds. -/
def stdCopyStep (dstout dsterr : Writer τ ε) (rounds : Nat) (st : State σ τ) : State σ τ ⊕ Option (StdCopied τ ε) :=
  match fill read st.bufLen stdWriterPrefixLen rounds st.buf with
  | none => .inr none
  | some (.short, _) => .inr (some ⟨st.written, none, st.dst⟩)
  | some (.failed e, _) => .inr (some ⟨0, some (.io e), st.dst⟩)
  | some (.full, b) =>
    match selectOut dstout dsterr (b.data.headD 0) with
    | none => .inr (some ⟨0, some .invalidStdHeader, st.dst⟩)
    | some out =>
      copyFrame read rounds out (frameSize b.data)
        { st with buf := b, bufLen := extend st.bufLen (frameSize b.data) }

/-- The variables at first. -/
def start (src : σ) (dst : τ) : State σ τ where
  buf := ⟨[], src⟩
  bufLen := 32 * 1024 + stdWriterPrefixLen + 1
  written := 0
  dst := dst

/-- `StdCopy`, each loop in at most so many rounds. -/
def stdCopy (dstout dsterr : Writer τ ε) (rounds : Nat) (src : σ) (dst : τ) : Option (StdCopied τ ε) :=
  (run (stdCopyStep read dstout dsterr rounds) rounds (start src dst)).join

/-! ## What was sent -/

/-- A connection that takes all it is given. -/
def connection (ε : Type) : Writer Bytes ε := fun sent buf => ⟨buf.length, none, sent ++ buf⟩

/-- The writes of a session, in order, each through one of its writers: what the connection has taken. -/
def send {ι : Type} [DecidableEq ι] (ε : Type) : (ι → Option (StdWriter Bytes ε)) → List (ι × Bytes) → Bytes → Bytes
  | _, [], sent => sent
  | ws, (i, buf) :: rest, sent =>
    let r := StdWriter.write (ws i) sent buf
    send ε (Function.update ws i r.2) rest r.1.dst

/-- The bytes on the connection after the writes of a session, whose writers are new at its start. -/
def stream {ι : Type} [DecidableEq ι] (ε : Type) (kind : ι → Std) (writes : List (ι × Bytes)) : Bytes :=
  send ε (fun i => some (newStdWriter (connection ε) (kind i).header)) writes []

/-- The frame of a piece. -/
def frame (t : Std) (buf : Bytes) : Bytes := t.fd :: 0 :: 0 :: 0 :: (bigEndian (UInt32.ofNat buf.length) ++ buf)

/-- The writes whose frames are complete in the first `n` bytes of the stream. -/
def complete {ι : Type} : List (ι × Bytes) → Nat → List (ι × Bytes)
  | [], _ => []
  | w :: rest, n =>
    if stdWriterPrefixLen + w.2.length ≤ n then
      w :: complete rest (n - (stdWriterPrefixLen + w.2.length))
    else []

/-- The pieces that were written to some of the streams, one behind the other. -/
def payloads {ι : Type} (kind : ι → Std) (on : Std → Bool) (writes : List (ι × Bytes)) : Bytes :=
  (writes.filter fun w => on (kind w.1)).flatMap Prod.snd

/-- The streams of the first destination. -/
def Std.onFirst (t : Std) : Bool := t = .stdin || t = .stdout

/-- The streams of the second destination. -/
def Std.onSecond (t : Std) : Bool := t = .stderr

/-- The first of two destinations that take all they are given. -/
def first (ε : Type) : Writer (Bytes × Bytes) ε := fun d buf => ⟨buf.length, none, (d.1 ++ buf, d.2)⟩

/-- The second of two destinations that take all they are given. -/
def second (ε : Type) : Writer (Bytes × Bytes) ε := fun d buf => ⟨buf.length, none, (d.1, d.2 ++ buf)⟩

/-! ## Frames -/

theorem length_bigEndian (n : UInt32) : (bigEndian n).length = 4 := rfl

/-- The size in a header is read back. -/
theorem uint32_bigEndian (n : UInt32) : uint32 (bigEndian n) = n := by
  have hn := n.toNat_lt
  apply UInt32.toNat_inj.mp
  simp only [uint32, bigEndian, toNat_ofNat', UInt32.toNat_ofNat']
  omega

theorem toList_putSize (a b c d : UInt8) (n : UInt32) :
    (StdType.putSize #v[t.fd, 0, 0, 0, a, b, c, d] n).toList = t.fd :: 0 :: 0 :: 0 :: bigEndian n := rfl

theorem length_frame : (frame t buf).length = stdWriterPrefixLen + buf.length := by
  simp only [frame, List.length_cons, List.length_append, length_bigEndian, stdWriterPrefixLen]
  omega

theorem frame_drop : (frame t buf).drop stdWriterPrefixLen = buf := rfl

end

/-- The size of a piece is read back from the front of its frame, if 32 bits can hold it. -/
theorem frameSize_frame {buf : Bytes} (hsize : buf.length < 2 ^ 31) {data : Bytes}
    (h : (frame t buf).take stdWriterPrefixLen <+: data) : frameSize data = buf.length := by
  obtain ⟨tail, rfl⟩ := h
  have hhead : ((((frame t buf).take stdWriterPrefixLen ++ tail).drop stdWriterSizeIndex).take 4) =
      bigEndian (UInt32.ofNat buf.length) := rfl
  rw [frameSize, hhead, uint32_bigEndian, UInt32.toNat_ofNat']
  omega

theorem head_frame {buf data : Bytes} (h : (frame t buf).take stdWriterPrefixLen <+: data) : data.headD 0 = t.fd := by
  obtain ⟨tail, rfl⟩ := h
  rfl

/-! ## The connection -/

section Send

variable {ι : Type} [DecidableEq ι] {kind : ι → Std} {ws : ι → Option (StdWriter Bytes ε)}

/-- The writers of a session, whatever size their headers have been given. -/
def Ready (kind : ι → Std) (ws : ι → Option (StdWriter Bytes ε)) : Prop :=
  ∀ i, ∃ a b c d, ws i = some ⟨some (connection ε), #v[(kind i).fd, 0, 0, 0, a, b, c, d]⟩

/-- A write puts one frame on the connection, reports all of its piece, and leaves the writer ready. -/
theorem write_ready (h : Ready kind ws) (i : ι) (sent buf : Bytes) :
    (StdWriter.write (ws i) sent buf).1 = ⟨buf.length, none, sent ++ frame (kind i) buf⟩ ∧
      Ready kind (Function.update ws i (StdWriter.write (ws i) sent buf).2) := by
  obtain ⟨a, b, c, d, hi⟩ := h i
  constructor
  · simp only [hi, StdWriter.write, connection, toList_putSize, Option.map_none, frame]
    simp [length_bigEndian, stdWriterPrefixLen]
  intro j
  by_cases hj : j = i
  · subst hj
    rw [Function.update_self, hi]
    exact ⟨_, _, _, _, rfl⟩
  · rw [Function.update_of_ne hj]
    exact h j

/-- The connection carries the frames of the writes. -/
theorem send_ready (h : Ready kind ws) (writes : List (ι × Bytes)) (sent : Bytes) :
    send ε ws writes sent = sent ++ writes.flatMap fun w => frame (kind w.1) w.2 := by
  induction writes generalizing ws sent with
  | nil => simp [send]
  | cons w rest ih =>
    obtain ⟨i, buf⟩ := w
    obtain ⟨hwrote, hready⟩ := write_ready h i sent buf
    rw [send, ih hready, hwrote, List.flatMap_cons, List.append_assoc]

end Send

/-! ## One round -/

/-- The destination of a stream. -/
def side (ε : Type) : Std → Writer (Bytes × Bytes) ε
  | .stdin => first ε
  | .stdout => first ε
  | .stderr => second ε

theorem selectOut_fd : selectOut (first ε) (second ε) t.fd = some (side ε t) := by
  cases t <;> rfl

/-- The destinations with one more piece on the side of its stream. -/
def deliver (t : Std) (buf : Bytes) (d : Bytes × Bytes) : Bytes × Bytes :=
  (if t.onFirst then d.1 ++ buf else d.1, if t.onSecond then d.2 ++ buf else d.2)

theorem side_eq (d : Bytes × Bytes) (buf : Bytes) : side ε t d buf = ⟨buf.length, none, deliver t buf d⟩ := by
  cases t <;> rfl

theorem le_extend (bufLen size : Nat) : size + stdWriterPrefixLen ≤ extend bufLen size := by
  rw [extend]
  split <;> omega

theorem le_extend_self (bufLen size : Nat) : bufLen ≤ extend bufLen size := by
  rw [extend]
  split <;> omega

section Round

variable {read : Reader σ UInt8 ε} {left : σ → Bytes} {rounds : Nat} {st : State σ (Bytes × Bytes)}

/-- What is in the buffer is the front of what there is. -/
theorem data_isPrefix (b : Pending σ UInt8) : b.data <+: b.all left := List.prefix_append _ _

/-- Without a whole header the copy ends. -/
theorem stdCopyStep_short (h : Feeds read left) (hlen : stdWriterPrefixLen ≤ st.bufLen)
    (hrounds : (st.buf.all left).length < rounds) (hshort : (st.buf.all left).length < stdWriterPrefixLen) :
    stdCopyStep read (first ε) (second ε) rounds st = .inr (some ⟨st.written, none, st.dst⟩) := by
  obtain ⟨b, hb⟩ := fill_short h hlen hrounds hshort
  rw [stdCopyStep, hb]

variable {t : Std} {buf rest : Bytes}

section

variable (h : Feeds read left)
include h

/-- With the header of a frame in front, the frame is copied, in a buffer that holds it. -/
theorem stdCopyStep_header (hlen : stdWriterPrefixLen ≤ st.bufLen)
    (hrounds : (st.buf.all left).length < rounds) (hsize : buf.length < 2 ^ 31)
    (hhead : (frame t buf).take stdWriterPrefixLen <+: st.buf.all left) :
    ∃ b, b.all left = st.buf.all left ∧
      stdCopyStep read (first ε) (second ε) rounds st =
        copyFrame read rounds (side ε t) buf.length
          { st with buf := b, bufLen := extend st.bufLen buf.length } := by
  have hneed : stdWriterPrefixLen ≤ (st.buf.all left).length := hhead.length_le
  obtain ⟨b, hb, hall, hdata⟩ := fill_full h hlen hrounds hneed
  have hfront : (frame t buf).take stdWriterPrefixLen <+: b.data := by
    apply List.prefix_of_prefix_length_le hhead _ hdata
    rw [← hall]
    exact data_isPrefix b
  refine ⟨b, hall, ?_⟩
  rw [stdCopyStep, hb]
  simp only [head_frame t hfront, selectOut_fd, frameSize_frame t hsize hfront]

/-- A complete frame is delivered and taken off. -/
theorem copyFrame_full (st : State σ (Bytes × Bytes))
    (hlen : buf.length + stdWriterPrefixLen ≤ st.bufLen) (hrounds : (st.buf.all left).length < rounds)
    (hall : st.buf.all left = frame t buf ++ rest) :
    ∃ b, b.all left = rest ∧
      copyFrame read rounds (side ε t) buf.length st =
        .inl { st with buf := b, written := st.written + Int64.ofNat buf.length,
                       dst := deliver t buf st.dst } := by
  have hframe : (frame t buf).length = buf.length + stdWriterPrefixLen := by
    rw [length_frame, Nat.add_comm]
  have hneed : buf.length + stdWriterPrefixLen ≤ (st.buf.all left).length := by
    rw [hall, List.length_append, hframe]
    exact Nat.le_add_right _ _
  obtain ⟨b, hb, hsame, hdata⟩ := fill_full h hlen hrounds hneed
  -- the frame is in the buffer as a whole, with what was read behind it
  obtain ⟨d, hd⟩ : frame t buf <+: b.data := by
    rw [← hframe] at hdata
    apply List.prefix_of_prefix_length_le (List.prefix_append _ rest) _ hdata
    rw [← hall, ← hsame]
    exact data_isPrefix b
  refine ⟨⟨d, b.src⟩, ?_, ?_⟩
  · rw [hall, Pending.all, ← hd, List.append_assoc] at hsame
    exact List.append_cancel_left hsame
  · rw [copyFrame, hb]
    simp only [← hd, ← hframe, List.take_left, List.drop_left, frame_drop, side_eq, ne_eq,
      not_true_eq_false, if_false]

section

variable (hlen : stdWriterPrefixLen ≤ st.bufLen) (hrounds : (st.buf.all left).length < rounds) (hsize : buf.length < 2 ^ 31)
include hlen hrounds hsize

/-- A round in front of a complete frame. -/
theorem stdCopyStep_frame (hall : st.buf.all left = frame t buf ++ rest) :
    ∃ st', stdCopyStep read (first ε) (second ε) rounds st = .inl st' ∧ st'.buf.all left = rest ∧
      stdWriterPrefixLen ≤ st'.bufLen ∧ st'.written = st.written + Int64.ofNat buf.length ∧
      st'.dst = deliver t buf st.dst := by
  have hhead : (frame t buf).take stdWriterPrefixLen <+: st.buf.all left := by
    rw [hall]
    exact (List.take_prefix _ _).trans (List.prefix_append _ _)
  obtain ⟨b, hb, hstep⟩ := stdCopyStep_header h hlen hrounds hsize hhead
  rw [← hb] at hrounds hall
  obtain ⟨b', hb', hfull⟩ := copyFrame_full h
    { st with buf := b, bufLen := extend st.bufLen buf.length } (le_extend _ _) hrounds hall
  exact ⟨_, hstep.trans hfull, hb', Nat.le_trans hlen (le_extend_self _ _), rfl, rfl⟩

end

end

end Round

/-! ## The whole copy -/

section Delivery

variable {ι : Type} {kind : ι → Std}

/-- The number of bytes in some pieces. -/
def total (writes : List (ι × Bytes)) : Nat := (writes.map fun w => w.2.length).sum

theorem complete_cons_of_lt {w : ι × Bytes} {rest : List (ι × Bytes)} {n : Nat}
    (h : n < stdWriterPrefixLen + w.2.length) : complete (w :: rest) n = [] := by
  rw [complete, if_neg (Nat.not_le.mpr h)]

/-- The destinations behind some complete frames. -/
def delivered (kind : ι → Std) (writes : List (ι × Bytes)) (d : Bytes × Bytes) : Bytes × Bytes :=
  (d.1 ++ payloads kind Std.onFirst writes, d.2 ++ payloads kind Std.onSecond writes)

theorem delivered_nil (d : Bytes × Bytes) : delivered kind [] d = d := by
  simp [delivered, payloads]

theorem delivered_cons (w : ι × Bytes) (rest : List (ι × Bytes)) (d : Bytes × Bytes) :
    delivered kind (w :: rest) d = delivered kind rest (deliver (kind w.1) w.2 d) := by
  cases ht : kind w.1 <;>
    simp [delivered, payloads, deliver, ht, Std.onFirst, Std.onSecond]

variable {read : Reader σ UInt8 ε} {left : σ → Bytes} {rounds : Nat}

/-- **The loop delivers**: from any state in which the frames of some writes are still to come, up to some
byte. The induction is on the writes; a round takes one frame off, or ends the copy. -/
theorem run_delivers (h : Feeds read left) {writes : List (ι × Bytes)} (hsize : ∀ w ∈ writes, w.2.length < 2 ^ 31) :
    ∀ {k : Nat} (st : State σ (Bytes × Bytes)), stdWriterPrefixLen ≤ st.bufLen →
      st.buf.all left <+: (writes.flatMap fun w => frame (kind w.1) w.2) →
      (st.buf.all left).length < rounds → (st.buf.all left).length < k →
      run (stdCopyStep read (first ε) (second ε) rounds) k st =
        some (some ⟨st.written + Int64.ofNat (total (complete writes (st.buf.all left).length)), none,
          delivered kind (complete writes (st.buf.all left).length) st.dst⟩) := by
  induction writes with
  | nil =>
    intro k st hlen hall hrounds hk
    obtain ⟨k, rfl⟩ : ∃ j, k = j + 1 := ⟨k - 1, by omega⟩
    have hnil : st.buf.all left = [] := List.prefix_nil.mp hall
    have hshort : (st.buf.all left).length < stdWriterPrefixLen := by rw [hnil]; decide
    rw [run_leave (stdCopyStep_short h hlen hrounds hshort), complete, delivered_nil]
    simp [total]
  | cons w rest ih =>
    intro k st hlen hall hrounds hk
    obtain ⟨k, rfl⟩ : ∃ j, k = j + 1 := ⟨k - 1, by omega⟩
    have hw : w.2.length < 2 ^ 31 := hsize w (by simp)
    rw [List.flatMap_cons] at hall
    by_cases hhead : (st.buf.all left).length < stdWriterPrefixLen
    · -- the stream ends in the header
      rw [run_leave (stdCopyStep_short h hlen hrounds hhead), complete_cons_of_lt (by omega),
        delivered_nil]
      simp [total]
    have hfront : (frame (kind w.1) w.2).take stdWriterPrefixLen <+: st.buf.all left := by
      apply List.prefix_of_prefix_length_le ((List.take_prefix _ _).trans (List.prefix_append _ _)) hall
      simpa [length_frame] using hhead
    by_cases hframe : (st.buf.all left).length < w.2.length + stdWriterPrefixLen
    · -- the stream ends in the piece
      obtain ⟨b, hb, hstep⟩ := stdCopyStep_header h hlen hrounds hw hfront
      obtain ⟨b', hb'⟩ := fill_short h (le_extend _ _) (hb ▸ hrounds) (hb ▸ hframe)
      rw [copyFrame, hb'] at hstep
      rw [run_leave hstep, complete_cons_of_lt (by omega), delivered_nil]
      simp [total]
    · obtain ⟨tail, htail⟩ : frame (kind w.1) w.2 <+: st.buf.all left := by
        apply List.prefix_of_prefix_length_le (List.prefix_append _ _) hall
        rw [length_frame]
        omega
      have hrest : tail <+: rest.flatMap fun w => frame (kind w.1) w.2 := by
        rw [← htail] at hall
        exact (List.prefix_append_right_inj _).mp hall
      have hlength : (st.buf.all left).length = stdWriterPrefixLen + w.2.length + tail.length := by
        rw [← htail, List.length_append, length_frame]
      obtain ⟨st', hstep, rfl, hlen', hwritten, hdst⟩ := stdCopyStep_frame h hlen hrounds hw htail.symm
      rw [run_continue hstep, ih (List.forall_mem_cons.mp hsize).2 st' hlen' hrest
        (by omega) (by simp only [stdWriterPrefixLen] at hlength; omega), hlength, complete,
        if_pos (Nat.le_add_right _ _), Nat.add_sub_cancel_left, delivered_cons, hwritten, hdst]
      simp only [total, List.map_cons, List.sum_cons, Int64.ofNat_add, Int64.add_assoc]

variable [DecidableEq ι]

/-- **Multiplexed output is delivered exactly**: for all writes of pieces below `2 ^ 31` bytes to writers of
the three streams, wherever the stream is cut off, and however a source cuts what is left of it into reads. -/
theorem stdCopy_delivers (kind : ι → Std) {writes : List (ι × Bytes)}
    (hsize : ∀ w ∈ writes, w.2.length < 2 ^ 31) {read : Reader σ UInt8 ε} {left : σ → Bytes}
    (hread : Feeds read left) {src : σ} (hsrc : left src <+: stream ε kind writes) {rounds : Nat}
    (hrounds : (left src).length < rounds) :
    stdCopy read (first ε) (second ε) rounds src ([], []) =
      some {
        written := Int64.ofNat (total (complete writes (left src).length))
        err := none
        dst := (payloads kind Std.onFirst (complete writes (left src).length),
          payloads kind Std.onSecond (complete writes (left src).length)) } := by
  have hready : Ready kind fun i => some (newStdWriter (connection ε) (kind i).header) := fun _ => ⟨0, 0, 0, 0, rfl⟩
  rw [stream, send_ready hready, List.nil_append] at hsrc
  have hlen : stdWriterPrefixLen ≤ 32 * 1024 + stdWriterPrefixLen + 1 := by decide
  rw [stdCopy, run_delivers hread hsize (start src ([], [])) hlen hsrc hrounds hrounds, Option.join_some]
  simp only [start, Pending.all, List.nil_append, Int64.zero_add, delivered]

end Delivery

/-- A connection that breaks off inside the second frame, read byte by byte. -/
theorem stdCopy_delivers_singly :
    stdCopy (singly Empty) (first Empty) (second Empty) 20
      [1, 0, 0, 0, 0, 0, 0, 2, 104, 105, 2, 0, 0, 0, 0, 0, 0, 2, 110] ([], []) =
        some ⟨2, none, ([104, 105], [])⟩ := by
  have hsize : ∀ w ∈ [(Std.stdout, ([104, 105] : Bytes)), (Std.stderr, [110, 111])], w.2.length < 2 ^ 31 := by decide
  have hsrc : id [1, 0, 0, 0, 0, 0, 0, 2, 104, 105, 2, 0, 0, 0, 0, 0, 0, 2, 110] <+:
      stream Empty id [(Std.stdout, ([104, 105] : Bytes)), (Std.stderr, [110, 111])] := by decide
  have hrounds : (id [1, 0, 0, 0, 0, 0, 0, 2, 104, 105, 2, 0, 0, 0, 0, 0, 0, 2, 110] : Bytes).length < 20 := by
    decide
  exact (stdCopy_delivers id hsize feeds_singly hsrc hrounds).trans (by decide)

end DockerEngine.Stdcopy
