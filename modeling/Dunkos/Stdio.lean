import Dunkos.Directory
import Mathlib.Data.List.Induction

/-! # Streams (`fdbuf.c`)

A stream has a buffer for each direction, with `maxrd` and `maxwr` as the bounds of what may go through them.  Both are 0
at first; `maxwr` is never set, and `maxrd` only by a call that finds it set.  So every call goes to `read` or `write`
itself, and `stream_order` is what follows for the bytes of a stream. -/

namespace Dunkos

def cachsz : ℕ := 0x100

/-- `struct _fdbuf`.  The caches are what the two pointers point to. -/
structure FdBuf where
  fd : BitVec 32
  error : BitVec 32
  rd : Bool
  wr : Bool
  rdpos : BitVec 64
  wrpos : BitVec 64
  maxrd : BitVec 64
  maxwr : BitVec 64
  rdcache : ℕ → Byte
  wrcache : ℕ → Byte

/-! ### Setting up -/

/-- A stream in static storage. -/
def FdBuf.zero : FdBuf := ⟨0, 0, false, false, 0, 0, 0, 0, fun _ => 0, fun _ => 0⟩

/-- `init_stdfile`; the buffers of `calloc` have zeros. -/
def initStdfile (stream : FdBuf) (fd : BitVec 32) (wr rd : Bool) : FdBuf :=
  let stream := { stream with fd := fd, wr := wr, rd := rd }
  let stream := if rd then { stream with rdcache := fun _ => 0 } else stream
  if wr then { stream with wrcache := fun _ => 0 } else stream

def openRd : BitVec 32 := 1

def openWr : BitVec 32 := 2

def openRw : BitVec 32 := openRd ||| openWr

/-- `fopen`, with what `flags` holds at the start.  It does not look at the path, and does not open a file; `calloc` is
taken to return memory of its own. -/
def fopen (modechr next : Byte) (flags : BitVec 32) : FdBuf :=
  let flags := match modechr with
    | 0x77 => openWr
    | 0x72 => openRd
    | 0x61 => openWr
    | _ => flags
  let flags := if next ≠ 0 then openRw else flags
  let rd := flags &&& openRd ≠ 0
  let wr := flags &&& openWr ≠ 0
  { FdBuf.zero with rd := rd, wr := wr, rdpos := 0, wrpos := 0, maxrd := 0, maxwr := 0, error := 0 }

/-- The ways to come by a stream. -/
inductive Opening where
  | stdin
  | stdout
  | stderr
  | fopen (modechr next : Byte) (flags : BitVec 32)

/-- `init_stdio` and `fopen`. -/
def Opening.stream : Opening → FdBuf
  | stdin => initStdfile FdBuf.zero 0 false true
  | stdout => initStdfile FdBuf.zero 1 true false
  | stderr => initStdfile FdBuf.zero 2 true false
  | fopen modechr next flags => Dunkos.fopen modechr next flags

/-! ### The system calls -/

/-- How the kernel answers the `k`-th system call of a run: how many of `n` bytes it writes, and which bytes, `n` at most,
it reads. -/
structure SysCalls where
  write : ℕ → BitVec 64 → BitVec 64
  write_le : ∀ k n, write k n ≤ n
  read : ℕ → BitVec 64 → List Byte
  length_read_le : ∀ k n, (read k n).length ≤ n.toNat

def firstBytes (buf : ℕ → Byte) (n : ℕ) : List Byte := (List.range n).map buf

/-- The descriptor of the stream: the bytes that `write` took and those that `read` gave. -/
structure Descriptor where
  calls : ℕ
  accepted : List Byte
  obtained : List Byte

namespace Descriptor
variable (sys : SysCalls) (d : Descriptor) (buf : ℕ → Byte) (n : BitVec 64)

/-- `write(fd, buf, n)`. -/
def write : Descriptor × BitVec 64 :=
  let count := sys.write d.calls n
  ({ d with calls := d.calls + 1, accepted := d.accepted ++ firstBytes buf count.toNat }, count)

/-- `read(fd, buf, n)`, with what is then at `buf`. -/
def read : Descriptor × (ℕ → Byte) × BitVec 64 :=
  let bytes := sys.read d.calls n
  ({ d with calls := d.calls + 1, obtained := d.obtained ++ bytes },
    writeBytes buf (fun i => bytes.getD i 0) 0 bytes.length, BitVec.ofNat 64 bytes.length)

end Descriptor

/-! ### Reading and writing -/

namespace FdBuf
variable (sys : SysCalls) (stream : FdBuf) (d : Descriptor)

def fflush : FdBuf × Descriptor :=
  if stream.wrpos.toInt > 0 then
    ({ stream with wrpos := 0 }, (d.write sys stream.wrcache stream.wrpos).1)
  else (stream, d)

/-- `fread`: the stream, what is then at `ptr`, and the result. -/
def fread (ptr : ℕ → Byte) (size nmemb : BitVec 64) : FdBuf × Descriptor × (ℕ → Byte) × BitVec 64 :=
  if stream.rd then
    let rdsz := size * nmemb
    if rdsz < stream.maxrd then
      let (stream, d) :=
        if stream.rdpos + rdsz ≥ stream.maxrd then
          let (d, rdcache, maxrd) := d.read sys stream.rdcache (BitVec.ofNat 64 cachsz)
          ({ stream with rdcache := rdcache, maxrd := maxrd, rdpos := 0 }, d)
        else (stream, d)
      (stream, d, writeBytes ptr stream.rdcache 0 rdsz.toNat, rdsz)
    else
      let ptr := writeBytes ptr stream.rdcache 0 stream.maxrd.toNat
      let nread := stream.maxrd
      let rdsz := rdsz - stream.maxrd
      let (d, ptr, nread) :=
        if rdsz > 0 then
          let (d, ptr, count) := d.read sys ptr rdsz
          (d, ptr, nread + count)
        else (d, ptr, nread)
      ({ stream with maxrd := 0, rdpos := 0 }, d, ptr, nread)
  else (stream, d, ptr, 0)

def fwrite (ptr : ℕ → Byte) (size nmemb : BitVec 64) : FdBuf × Descriptor × BitVec 64 :=
  if stream.wr then
    let wrsz := size * nmemb
    if wrsz < stream.maxwr then
      let (stream, d) := if stream.wrpos + wrsz ≥ BitVec.ofNat 64 cachsz then stream.fflush sys d else (stream, d)
      ({ stream with wrcache := writeBytes stream.wrcache ptr 0 wrsz.toNat, wrpos := stream.wrpos + wrsz }, d, 0)
    else
      let (stream, d) := stream.fflush sys d
      let (d, count) := d.write sys ptr wrsz
      (stream, d, 0 + count)
  else (stream, d, 0)

def ferror : BitVec 32 := stream.error

def fputc (c : BitVec 32) : FdBuf × Descriptor × BitVec 32 :=
  let val : Byte := c.setWidth 8
  let (stream, d, _) := stream.fwrite sys d (fun _ => val) 1 1
  (stream, d, if stream.ferror ≠ 0 then -1 else c)

/-- The bytes that wait in the cache. -/
def pending : List Byte := firstBytes stream.wrcache stream.wrpos.toNat

/-- What `fwrite` takes of the data: all of it when it goes to the cache, else as many bytes as the call returns. -/
def taken (ptr : ℕ → Byte) (size nmemb : BitVec 64) : List Byte :=
  if stream.wr ∧ size * nmemb < stream.maxwr then firstBytes ptr (size * nmemb).toNat
  else firstBytes ptr (stream.fwrite sys d ptr size nmemb).2.2.toNat

end FdBuf

/-! ### Runs -/

inductive StreamOp where
  | fread (ptr : ℕ → Byte) (size nmemb : BitVec 64)
  | fwrite (ptr : ℕ → Byte) (size nmemb : BitVec 64)
  | fputc (c : BitVec 32)
  | fflush

/-- A stream in use, with the bytes that its calls took and the bytes that they stored, so far. -/
structure StreamRun where
  stream : FdBuf
  fd : Descriptor
  written : List Byte
  stored : List Byte

def StreamOp.step (sys : SysCalls) (s : StreamRun) : StreamOp → StreamRun
  | fread ptr size nmemb =>
      let (stream, d, ptr, nread) := s.stream.fread sys s.fd ptr size nmemb
      ⟨stream, d, s.written, s.stored ++ firstBytes ptr nread.toNat⟩
  | fwrite ptr size nmemb =>
      let (stream, d, _) := s.stream.fwrite sys s.fd ptr size nmemb
      ⟨stream, d, s.written ++ s.stream.taken sys s.fd ptr size nmemb, s.stored⟩
  | fputc c =>
      let (stream, d, _) := s.stream.fputc sys s.fd c
      ⟨stream, d, s.written ++ s.stream.taken sys s.fd (fun _ => c.setWidth 8) 1 1, s.stored⟩
  | fflush =>
      let (stream, d) := s.stream.fflush sys s.fd
      ⟨stream, d, s.written, s.stored⟩

/-- The calls, on a stream that was just set up. -/
def streamRun (sys : SysCalls) (o : Opening) (ops : List StreamOp) : StreamRun :=
  ops.foldl (StreamOp.step sys) ⟨o.stream, ⟨0, [], []⟩, [], []⟩

/-- Nothing is in the buffers, and nothing will be. -/
structure FdBuf.Direct (stream : FdBuf) : Prop where
  wrpos : stream.wrpos = 0
  maxwr : stream.maxwr = 0
  maxrd : stream.maxrd = 0

theorem Opening.direct (o : Opening) : o.stream.Direct := by
  cases o <;> exact ⟨rfl, rfl, rfl⟩

theorem firstBytes_writeBytes (buf : ℕ → Byte) (l : List Byte) :
    firstBytes (writeBytes buf (fun i => l.getD i 0) 0 l.length) l.length = l := by
  refine List.ext_getElem (by simp [firstBytes]) fun i hi hl => ?_
  have hin : 0 ≤ i ∧ i < 0 + l.length := by omega
  simp only [firstBytes, List.getElem_map, List.getElem_range, writeBytes, if_pos hin, Nat.sub_zero]
  exact List.getD_eq_getElem _ _ hl

section
variable {sys : SysCalls} {stream : FdBuf} {d : Descriptor} {ptr : ℕ → Byte} {size nmemb : BitVec 64}

theorem FdBuf.Direct.pending (h : stream.Direct) : stream.pending = [] := by
  rw [FdBuf.pending, h.wrpos]
  rfl

theorem FdBuf.Direct.fflush (h : stream.Direct) : stream.fflush sys d = (stream, d) := by
  refine if_neg ?_
  rw [h.wrpos]
  decide

theorem FdBuf.Direct.not_cached (h : stream.Direct) : ¬ size * nmemb < stream.maxwr := by
  rw [h.maxwr]
  exact BitVec.not_lt_zero

/-- A stream for writing gives the data to `write`. -/
theorem FdBuf.Direct.fwrite (h : stream.Direct) (hwr : stream.wr = true) : stream.fwrite sys d ptr size nmemb =
    (stream, (d.write sys ptr (size * nmemb)).1, sys.write d.calls (size * nmemb)) := by
  have hcached : ¬ size * nmemb < stream.maxwr := h.not_cached
  have hzero : 0 + sys.write d.calls (size * nmemb) = sys.write d.calls (size * nmemb) := BitVec.zero_add _
  simp only [FdBuf.fwrite, hwr, if_true, hcached, if_false, h.fflush, Descriptor.write, hzero]

theorem FdBuf.Direct.taken (h : stream.Direct) (hwr : stream.wr = true) :
    stream.taken sys d ptr size nmemb = firstBytes ptr (sys.write d.calls (size * nmemb)).toNat := by
  have hcached : ¬ (stream.wr = true ∧ size * nmemb < stream.maxwr) := fun hc => h.not_cached hc.2
  rw [FdBuf.taken, if_neg hcached, h.fwrite hwr]

/-- A stream that is not for writing takes nothing. -/
theorem FdBuf.taken_of_not_wr (hwr : stream.wr = false) (sys : SysCalls) :
    stream.fwrite sys d ptr size nmemb = (stream, d, 0) ∧ stream.taken sys d ptr size nmemb = [] := by
  have hfwrite : stream.fwrite sys d ptr size nmemb = (stream, d, 0) := by simp [FdBuf.fwrite, hwr]
  refine ⟨hfwrite, ?_⟩
  rw [FdBuf.taken, if_neg (by simp [hwr]), hfwrite]
  rfl

/-- **Writing**: the descriptor gets what is taken. -/
theorem FdBuf.Direct.accepted (h : stream.Direct) (sys : SysCalls) (d : Descriptor) (ptr : ℕ → Byte)
    (size nmemb : BitVec 64) : (stream.fwrite sys d ptr size nmemb).1 = stream ∧
    (stream.fwrite sys d ptr size nmemb).2.1.accepted = d.accepted ++ stream.taken sys d ptr size nmemb ∧
      (stream.fwrite sys d ptr size nmemb).2.1.obtained = d.obtained := by
  cases hwr : stream.wr with
  | true =>
      rw [h.fwrite hwr, h.taken hwr]
      exact ⟨rfl, rfl, rfl⟩
  | false =>
      obtain ⟨hfwrite, htaken⟩ := FdBuf.taken_of_not_wr hwr sys
      rw [hfwrite, htaken, List.append_nil]
      exact ⟨rfl, rfl, rfl⟩

/-- What a call of `fread` did: the descriptor gave `bytes`, and these are what is stored. -/
structure Fetched (d : Descriptor) (ptr : ℕ → Byte) (res : FdBuf × Descriptor × (ℕ → Byte) × BitVec 64)
    (bytes : List Byte) : Prop where
  direct : res.1.Direct
  accepted : res.2.1.accepted = d.accepted
  obtained : res.2.1.obtained = d.obtained ++ bytes
  stored : firstBytes res.2.2.1 res.2.2.2.toNat = bytes
  frame : ∀ i, res.2.2.2.toNat ≤ i → res.2.2.1 i = ptr i

theorem Fetched.nothing (h : stream.Direct) : Fetched d ptr (stream, d, ptr, 0) [] :=
  ⟨h, rfl, (List.append_nil _).symm, rfl, fun _ _ => rfl⟩

/-- **Reading**. -/
theorem FdBuf.Direct.fread (h : stream.Direct) (sys : SysCalls) (d : Descriptor) (ptr : ℕ → Byte) (size nmemb : BitVec 64) :
    ∃ bytes, Fetched d ptr (stream.fread sys d ptr size nmemb) bytes := by
  have hcached : ¬ size * nmemb < stream.maxrd := by
    rw [h.maxrd]
    exact BitVec.not_lt_zero
  have hcopy : writeBytes ptr stream.rdcache 0 stream.maxrd.toNat = ptr := by
    funext i
    refine if_neg ?_
    rw [h.maxrd]
    exact fun hi => absurd hi.2 (by simp)
  have hrest : size * nmemb - stream.maxrd = size * nmemb := by
    rw [h.maxrd]
    exact BitVec.sub_zero _
  have hdirect : ∀ s : FdBuf, s.wrpos = stream.wrpos → s.maxwr = stream.maxwr → s.maxrd = 0 → s.Direct :=
    fun s hwrpos hmaxwr hmaxrd => ⟨hwrpos.trans h.wrpos, hmaxwr.trans h.maxwr, hmaxrd⟩
  cases hrd : stream.rd with
  | false =>
      refine ⟨[], ?_⟩
      simp only [FdBuf.fread, hrd]
      exact Fetched.nothing h
  | true =>
      simp only [FdBuf.fread, hrd, if_true, hcached, if_false, hcopy, hrest]
      by_cases hpos : size * nmemb > 0
      · have hlen := sys.length_read_le d.calls (size * nmemb)
        have hlt := (size * nmemb).isLt
        have hnread : (stream.maxrd + BitVec.ofNat 64 (sys.read d.calls (size * nmemb)).length).toNat =
            (sys.read d.calls (size * nmemb)).length := by
          rw [h.maxrd]
          refine (congrArg BitVec.toNat (BitVec.zero_add _)).trans ?_
          exact Nat.mod_eq_of_lt (by omega)
        refine ⟨sys.read d.calls (size * nmemb), ?_⟩
        simp only [hpos, if_true, Descriptor.read]
        refine ⟨hdirect _ rfl rfl rfl, rfl, rfl, ?_, fun i hi => if_neg ?_⟩
        · rw [hnread]
          exact firstBytes_writeBytes _ _
        · simp only [hnread] at hi
          omega
      · refine ⟨[], ?_⟩
        simp only [hpos, if_false]
        rw [h.maxrd]
        exact Fetched.nothing (hdirect _ rfl rfl rfl)

end

/-- What holds after any calls. -/
structure StreamRun.Ordered (s : StreamRun) : Prop where
  direct : s.stream.Direct
  written : s.fd.accepted = s.written
  stored : s.stored = s.fd.obtained

theorem StreamRun.Ordered.step (sys : SysCalls) {s : StreamRun} (h : s.Ordered) (op : StreamOp) :
    (op.step sys s).Ordered := by
  have hwrite : ∀ ptr size nmemb, StreamRun.Ordered ⟨(s.stream.fwrite sys s.fd ptr size nmemb).1,
      (s.stream.fwrite sys s.fd ptr size nmemb).2.1, s.written ++ s.stream.taken sys s.fd ptr size nmemb, s.stored⟩ := by
    intro ptr size nmemb
    obtain ⟨hstream, haccepted, hobtained⟩ := h.direct.accepted sys s.fd ptr size nmemb
    refine ⟨?_, ?_, h.stored.trans hobtained.symm⟩
    · show (s.stream.fwrite sys s.fd ptr size nmemb).1.Direct
      rw [hstream]
      exact h.direct
    · rw [haccepted, h.written]
  cases op with
  | fread ptr size nmemb =>
      obtain ⟨bytes, hbytes⟩ := h.direct.fread sys s.fd ptr size nmemb
      have hstored : s.stored ++ bytes = s.fd.obtained ++ bytes := by rw [h.stored]
      refine ⟨hbytes.direct, hbytes.accepted.trans h.written, ?_⟩
      exact (congrArg (s.stored ++ ·) hbytes.stored).trans (hstored.trans hbytes.obtained.symm)
  | fwrite ptr size nmemb => exact hwrite ptr size nmemb
  | fputc c => exact hwrite (fun _ => c.setWidth 8) 1 1
  | fflush =>
      have hflush : StreamOp.fflush.step sys s = s := by
        show StreamRun.mk (s.stream.fflush sys s.fd).1 (s.stream.fflush sys s.fd).2 s.written s.stored = s
        rw [h.direct.fflush]
      rw [hflush]
      exact h

/-- **Streams.**  After any calls on a stream that was set up, what `write` took and what waits in the cache are what the
calls took, in order; the cache is not overrun; the calls stored what `read` gave, in order, and the next one will not
store anything else. -/
theorem stream_order (sys : SysCalls) (o : Opening) (ops : List StreamOp) : let s := streamRun sys o ops
    s.fd.accepted ++ s.stream.pending = s.written ∧ s.stream.wrpos.toNat ≤ cachsz ∧ s.stored = s.fd.obtained ∧
      ∀ ptr size nmemb i, (s.stream.fread sys s.fd ptr size nmemb).2.2.2.toNat ≤ i →
        (s.stream.fread sys s.fd ptr size nmemb).2.2.1 i = ptr i := by
  intro s
  have h : s.Ordered := by
    refine List.foldlRecOn ops (StreamOp.step sys) ⟨o.direct, rfl, rfl⟩ fun s hs op _ => ?_
    exact hs.step sys op
  refine ⟨?_, ?_, h.stored, fun ptr size nmemb i hi => ?_⟩
  · rw [h.direct.pending, List.append_nil, h.written]
  · rw [h.direct.wrpos]
    exact Nat.zero_le _
  · obtain ⟨bytes, hbytes⟩ := h.direct.fread sys s.fd ptr size nmemb
    exact hbytes.frame i hi

end Dunkos
