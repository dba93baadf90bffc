import VhomeBridge.WebSocket.Frame

/-! Reading a frame.  `ws_read` takes the pieces of the stream that `netconn_recv` gives until it has
as many bytes as the header announces; it is cut here where it waits for a piece.  The message is
copied to a block of its own: a write outside of the block is a fault, `none`.  A read behind the end
of a piece, which the copy of the first one makes, gives whatever lies there. -/

namespace VhomeBridge.WebSocket

open Lib

/-- A connection, as the address of its `struct netconn`. -/
abbrev Netconn := Nat

/-- A piece of the stream: `len` bytes at the start of the memory that `netbuf_data` points to. -/
structure Netbuf where
  data : Tape Byte
  len : BitVec 16

def Netbuf.bytes (buf : Netbuf) : List Byte := buf.data.read 0 buf.len.toNat

/-- The heap: the size of the largest block that `malloc` gives, and what a block holds at first. -/
structure Heap where
  room : Nat
  fresh : Tape Byte
  room_lt : room < 2 ^ 32

/-- `malloc` gives a block of this size; it gives none of size 0. -/
def Heap.gives (heap : Heap) (size : Nat) : Bool := 0 < size && size ≤ heap.room

/-- `ws_client_t`.  Of the continuation its size is kept, and that of the block it is in. -/
structure WsClient where
  conn : Option Netconn
  url : Option Text
  ping : Bool
  lastOpcode : BitVec 4
  contin : Option Nat
  len : BitVec 64
  unfinished : BitVec 32
  deriving DecidableEq

/-- With whom a client is connected, and for what. -/
def WsClient.peer (client : WsClient) : Option Netconn × Option Text := (client.conn, client.url)

/-- What `ws_read` has of a frame: the block `ret` with its size, and where the next piece goes. -/
structure Reading where
  header : WsHeader
  ret : Tape Byte
  size : Nat
  contLen : BitVec 64
  contPos : BitVec 64

/-- How far `ws_read` is: waiting for a piece, or back with a message, if it received one. -/
inductive Read
  | waits (client : WsClient) (r : Reading)
  | returns (client : WsClient) (msg : Option (WsHeader × List Byte))

def Read.client : Read → WsClient
  | waits client _ | returns client _ => client

/-- A 64-bit number as a `size_t`, and as an offset to a pointer. -/
def sizeT (n : BitVec 64) : Nat := (n.setWidth 32).toNat

/-- A continuation that is longer by `length` bytes. -/
def appendContin (heap : Heap) (client : WsClient) (length : BitVec 64) : Option WsClient :=
  let contLen := length + client.len
  if sizeT contLen ≤ heap.room ∧ sizeT client.len ≤ client.contin.getD 0 ∧
      sizeT client.len + sizeT length ≤ sizeT contLen then
    some { client with contin := some (sizeT contLen), len := contLen }
  else none

/-- `ws_encrypt_decrypt` on a message that stands at the start of a block. -/
def unmask (size : Nat) (ret : Tape Byte) (length : Nat) : Option Key → Option (Tape Byte)
  | some key => ret.store size 0 (mask key (ret.read 0 length))
  | none => some ret

/-- `ws_read` after its loop. -/
def wsReadEnd (heap : Heap) (client : WsClient) (r : Reading) : Option Read := do
  let length := r.header.length
  let opcode := r.header.param.opcode
  let ret ← r.ret.store r.size (sizeT length) [0]
  let ret ← unmask r.size ret length.toNat r.header.key
  if r.header.param.fin then
    return .returns { client with lastOpcode := opcode }
      (some (r.header, ret.read 0 length.toNat))
  else if opcode = Opcode.cont ∧
      (client.lastOpcode = Opcode.bin ∨ client.lastOpcode = Opcode.text) then
    return .returns (← appendContin heap client length) none
  else if opcode = Opcode.bin ∨ opcode = Opcode.text then
    let client := { client with contin := some (sizeT length), len := length, lastOpcode := opcode }
    return .returns client none
  else return .returns client none

/-- The test of the loop of `ws_read`. -/
def wsReadLoop (heap : Heap) (client : WsClient) (r : Reading) : Option Read :=
  if r.contLen < r.header.length then some (.waits client r) else wsReadEnd heap client r

/-- `ws_read` on the first piece. -/
def wsReadFirst (heap : Heap) (client : WsClient) (buf : Netbuf) : Option Read := do
  let (header, pos) := readHeader buf.data
  let size := sizeT (header.length + 1)
  if !heap.gives size then return .returns client none
  let contLen := buf.len.setWidth 64 - BitVec.ofNat 64 pos
  let ret ← heap.fresh.store size 0 (buf.data.read pos (sizeT header.length))
  wsReadLoop heap client ⟨header, ret, size, contLen, contLen⟩

/-- The body of the loop of `ws_read` on what `netconn_recv` gives, `none` for an error. -/
def wsReadMore (heap : Heap) (client : WsClient) (r : Reading) :
    Option Netbuf → Option Read
  | none => some (.returns { client with unfinished := 0 } none)
  | some buf2 =>
    let len2 := buf2.len.setWidth 64
    if r.header.length < r.contLen + len2 then
      some (.returns { client with unfinished := 0 } none)
    else do
      let ret ← r.ret.store r.size (sizeT r.contPos) buf2.bytes
      wsReadLoop heap { client with unfinished := client.unfinished + 1 }
        { r with ret := ret, contLen := r.contLen + len2, contPos := r.contPos + len2 }

/-- `ws_read` on a piece, the first or another one. -/
def wsReadPiece (heap : Heap) (client : WsClient) (buf : Netbuf) : Option Reading → Option Read
  | none => wsReadFirst heap client buf
  | some r => wsReadMore heap client r (some buf)

/-- `ws_read` goes on with the pieces that `netconn_recv` gives.  Those that it does not take are
left. -/
def wsReadPieces (heap : Heap) : Read → List Netbuf → Option (Read × List Netbuf)
  | .waits client r, buf2 :: bufs => do
    wsReadPieces heap (← wsReadMore heap client r (some buf2)) bufs
  | read, bufs => some (read, bufs)

/-- `ws_read`, for which at least one piece has come unless it gives up at once. -/
def wsRead (heap : Heap) (client : WsClient) (bufs : List Netbuf) :
    Option (Read × List Netbuf) :=
  if client.unfinished ≠ 0 then
    some (.returns { client with unfinished := client.unfinished - 1 } none, bufs)
  else
    match bufs with
    | [] => none
    | buf :: bufs => do wsReadPieces heap (← wsReadFirst heap client buf) bufs

section Peer

variable {heap : Heap} {client client' : WsClient} {r : Reading} {read : Read}

theorem appendContin_peer {length : BitVec 64}
    (h : appendContin heap client length = some client') : client'.peer = client.peer := by
  rw [appendContin, Option.ite_none_right_eq_some, Option.some.injEq] at h
  rw [← h.2]
  rfl

theorem wsReadEnd_peer (h : wsReadEnd heap client r = some read) :
    read.client.peer = client.peer := by
  simp only [wsReadEnd, Bind.bind, Option.bind_eq_some_iff] at h
  obtain ⟨ret, -, ret', -, h⟩ := h
  split at h
  · obtain rfl := Option.some.inj h
    rfl
  · split at h
    · simp only [Option.bind_eq_some_iff] at h
      obtain ⟨client', happend, h⟩ := h
      obtain rfl := Option.some.inj h
      exact appendContin_peer happend
    · split at h
      all_goals
        obtain rfl := Option.some.inj h
        rfl

theorem wsReadLoop_peer (h : wsReadLoop heap client r = some read) :
    read.client.peer = client.peer := by
  rw [wsReadLoop] at h
  split at h
  · obtain rfl := Option.some.inj h
    rfl
  · exact wsReadEnd_peer h

/-- `ws_read` leaves the client its connection and its url. -/
theorem wsReadFirst_peer {buf : Netbuf} (h : wsReadFirst heap client buf = some read) :
    read.client.peer = client.peer := by
  simp only [wsReadFirst, Bind.bind] at h
  split at h
  · obtain rfl := Option.some.inj h
    rfl
  · obtain ⟨ret, -, h⟩ := Option.bind_eq_some_iff.mp h
    exact wsReadLoop_peer h

theorem wsReadMore_peer {buf2 : Option Netbuf} (h : wsReadMore heap client r buf2 = some read) :
    read.client.peer = client.peer := by
  cases buf2 with
  | none =>
    obtain rfl := Option.some.inj h
    rfl
  | some buf2 =>
    simp only [wsReadMore] at h
    split at h
    · obtain rfl := Option.some.inj h
      rfl
    · obtain ⟨ret, -, h⟩ := Option.bind_eq_some_iff.mp h
      have hpeer := wsReadLoop_peer h
      exact hpeer

theorem wsReadPiece_peer {buf : Netbuf} {r : Option Reading}
    (h : wsReadPiece heap client buf r = some read) : read.client.peer = client.peer := by
  cases r with
  | none => exact wsReadFirst_peer h
  | some r =>
    have hmore : wsReadMore heap client r (some buf) = some read := h
    exact wsReadMore_peer hmore

theorem wsReadPiece_conn {buf : Netbuf} {r : Option Reading}
    (h : wsReadPiece heap client buf r = some read) : read.client.conn = client.conn :=
  congrArg Prod.fst (wsReadPiece_peer h)

theorem wsReadMore_conn {buf2 : Option Netbuf} (h : wsReadMore heap client r buf2 = some read) :
    read.client.conn = client.conn :=
  congrArg Prod.fst (wsReadMore_peer h)

end Peer

/-! ### The frame that is read -/

namespace Frame

variable (f : Frame)

/-- The frame goes on with a message of which the client has the start. -/
def Continues (client : WsClient) : Prop :=
  f.opcode = Opcode.cont ∧ (client.lastOpcode = Opcode.bin ∨ client.lastOpcode = Opcode.text)

instance (client : WsClient) : Decidable (f.Continues client) :=
  inferInstanceAs (Decidable (_ ∧ _))

/-- The client after the frame. -/
def after (client : WsClient) : WsClient :=
  if f.fin then { client with lastOpcode := f.opcode }
  else if f.Continues client then
    { client with
      contin := some (client.len.toNat + f.payload.length), len := f.length + client.len }
  else if f.opcode = Opcode.bin ∨ f.opcode = Opcode.text then
    { client with contin := some f.payload.length, len := f.length, lastOpcode := f.opcode }
  else client

/-- What `ws_read` returns for the frame. -/
def message : Option (WsHeader × List Byte) :=
  if f.fin then some (f.header, f.payload) else none

/-- The heap has room for the frame, and for the continuation with it. -/
def Fits (heap : Heap) (client : WsClient) : Prop :=
  f.payload.length < heap.room ∧ (f.after client).len.toNat ≤ heap.room

end Frame

/-- The block of the continuation is as large as the continuation, and no larger than a block of
the heap. -/
structure WsClient.Sound (heap : Heap) (client : WsClient) : Prop where
  block : client.len.toNat ≤ client.contin.getD 0
  room : client.len.toNat ≤ heap.room

/-- The first `done` bytes of the payload have been read, or all of it and what was behind it. -/
structure Reading.Has (f : Frame) (done : Nat) (r : Reading) : Prop where
  header : r.header = f.header
  size : r.size = f.payload.length + 1
  contPos : r.contPos = r.contLen
  contLen : min r.contLen.toNat f.payload.length = done
  ret : r.ret.Holds 0 (f.body.take done)

section Pieces

variable {heap : Heap} {client : WsClient} {f : Frame} {r : Reading} {done : Nat}

theorem sizeT_of_lt {n : BitVec 64} (h : n.toNat < 2 ^ 32) : sizeT n = n.toNat := by
  rw [sizeT, BitVec.toNat_setWidth, Nat.mod_eq_of_lt h]

theorem Frame.sizeT_length (h : f.payload.length < heap.room) :
    sizeT f.length = f.payload.length := by
  have := heap.room_lt
  rw [sizeT_of_lt (by rw [f.toNat_length]; omega), f.toNat_length]

theorem appendContin_eq (hsound : client.Sound heap) (hpayload : f.payload.length < heap.room)
    (hroom : (f.length + client.len).toNat ≤ heap.room) :
    appendContin heap client f.length =
      some { client with
        contin := some (client.len.toNat + f.payload.length), len := f.length + client.len } := by
  have hlt := heap.room_lt
  have hclient := hsound.room
  have hsum : (f.length + client.len).toNat = client.len.toNat + f.payload.length := by
    rw [BitVec.toNat_add, f.toNat_length, Nat.mod_eq_of_lt (by omega), Nat.add_comm]
  have hsize : sizeT (f.length + client.len) = client.len.toNat + f.payload.length := by
    rw [sizeT_of_lt (by omega), hsum]
  have hcontin : sizeT client.len = client.len.toNat := sizeT_of_lt (by omega)
  rw [appendContin, hsize, hcontin, f.sizeT_length hpayload, if_pos]
  exact ⟨by omega, hsound.block, le_refl _⟩

theorem Frame.length_body (f : Frame) : f.body.length = f.payload.length :=
  length_wsEncryptDecrypt ..

/-- The block holds the message once the masking is undone. -/
theorem unmask_eq {m : Tape Byte} {size : Nat} (hm : m.Holds 0 f.body)
    (hsize : f.payload.length ≤ size) :
    ∃ ret, unmask size m f.payload.length f.key = some ret ∧
      ret.read 0 f.payload.length = f.payload := by
  have hread := hm.read
  have htwice := wsEncryptDecrypt_twice f.payload f.key
  rw [f.length_body] at hread
  rw [← Frame.body] at htwice
  cases hkey : f.key with
  | none =>
    rw [hkey] at htwice
    exact ⟨m, rfl, hread.trans htwice⟩
  | some key =>
    have hmask : mask key f.body = f.payload := by rwa [hkey] at htwice
    refine ⟨m.write 0 f.payload, ?_, Tape.holds_write.read⟩
    rw [unmask, hread, hmask]
    exact Tape.store_of_le (by omega)

theorem wsReadEnd_eq (h : r.Has f f.payload.length) (hsound : client.Sound heap)
    (hfits : f.Fits heap client) :
    wsReadEnd heap client r = some (.returns (f.after client) f.message) := by
  have hlen := f.sizeT_length hfits.1
  have hstore : r.ret.store r.size f.payload.length [0] =
      some (r.ret.write f.payload.length [0]) :=
    Tape.store_of_le (by rw [h.size]; exact le_refl _)
  have hbody : (r.ret.write f.payload.length [0]).Holds 0 f.body := by
    have hret := h.ret
    rw [← f.length_body, List.take_length] at hret
    refine hret.frame fun k _ hk => Tape.write_of_lt ?_
    rw [f.length_body] at hk
    omega
  obtain ⟨ret, hunmask, hread⟩ := unmask_eq hbody (by rw [h.size]; omega : _ ≤ r.size)
  simp only [wsReadEnd, h.header, Frame.header, hlen, hstore, f.toNat_length, hunmask, Bind.bind,
    Option.bind_some, hread]
  rw [Frame.after, Frame.message]
  by_cases hfin : f.fin = true
  · rw [if_pos hfin, if_pos hfin]
    exact if_pos hfin
  · rw [if_neg hfin, if_neg hfin]
    refine (if_neg hfin).trans ?_
    by_cases hcont : f.Continues client
    · rw [if_pos hcont]
      refine (if_pos hcont).trans ?_
      have hroom : (f.length + client.len).toNat ≤ heap.room := by
        have hafter := hfits.2
        rwa [Frame.after, if_neg hfin, if_pos hcont] at hafter
      rw [appendContin_eq hsound hfits.1 hroom]
      rfl
    · rw [if_neg hcont]
      refine (if_neg hcont).trans ?_
      by_cases hstart : f.opcode = Opcode.bin ∨ f.opcode = Opcode.text
      · rw [if_pos hstart]
        exact if_pos hstart
      · rw [if_neg hstart]
        exact if_neg hstart

theorem wsReadFirst_eq (hfits : f.Fits heap client) {buf : Netbuf} {n : Nat}
    (hbuf : buf.data.Holds 0 (f.head ++ f.body.take n))
    (hlen : buf.len.toNat = f.head.length + n) :
    ∃ r, r.Has f (min n f.payload.length) ∧
      wsReadFirst heap client buf = wsReadLoop heap client r := by
  obtain ⟨hhead, hbody⟩ := Tape.holds_append.mp hbuf
  have hroom := heap.room_lt
  have hpayload := hfits.1
  have hsize : sizeT (f.length + 1) = f.payload.length + 1 := by
    have hone : (1 : BitVec 64).toNat = 1 := rfl
    have hsum : (f.length + 1).toNat = f.payload.length + 1 := by
      rw [BitVec.toNat_add, f.toNat_length, hone, Nat.mod_eq_of_lt (by omega)]
    rw [sizeT_of_lt (by omega), hsum]
  have hcont : (buf.len.setWidth 64 - BitVec.ofNat 64 f.head.length).toNat = n := by
    rw [BitVec.toNat_sub, BitVec.toNat_setWidth, BitVec.toNat_ofNat]
    omega
  have htake : (f.body.take n).length = min n f.payload.length := by
    rw [List.length_take, f.length_body]
  have hread : buf.data.read f.head.length f.payload.length = f.body.take n ++
      buf.data.read (f.head.length + min n f.payload.length)
        (f.payload.length - min n f.payload.length) := by
    have hfront := hbody.read
    rw [htake, Nat.zero_add] at hfront
    rw [← hfront, ← Tape.read_add, Nat.add_sub_of_le (Nat.min_le_right _ _)]
  have hstore : heap.fresh.store (f.payload.length + 1) 0
      (buf.data.read f.head.length f.payload.length) = some _ :=
    Tape.store_of_le (by simp)
  have hret : (heap.fresh.write 0 (buf.data.read f.head.length f.payload.length)).Holds 0
      (f.body.take (min n f.payload.length)) := by
    rw [hread, ← f.length_body, List.take_eq_take_min.symm]
    exact (Tape.holds_append.mp Tape.holds_write).1
  refine ⟨⟨f.header, _, f.payload.length + 1, _, _⟩, ⟨rfl, rfl, rfl, congrArg (min · _) hcont, hret⟩,
    ?_⟩
  rw [wsReadFirst, f.readHeader_eq hhead]
  have hgives : heap.gives (f.payload.length + 1) = true := by
    rw [Heap.gives, Bool.and_eq_true, decide_eq_true_eq, decide_eq_true_eq]
    omega
  simp only [Frame.header, hsize, f.sizeT_length hpayload, hstore, Bind.bind, Option.bind_some,
    hgives]
  rfl

theorem wsReadMore_eq (h : r.Has f done) (hfits : f.Fits heap client) {buf2 : Netbuf}
    (hdone : done < f.payload.length)
    (hbuf : buf2.bytes <+: f.body.drop done) :
    ∃ r', r'.Has f (done + buf2.len.toNat) ∧ wsReadMore heap client r (some buf2) =
      wsReadLoop heap { client with unfinished := client.unfinished + 1 } r' := by
  have hroom := heap.room_lt
  have hpayload := hfits.1
  have hbytes : buf2.bytes.length = buf2.len.toNat := Tape.length_read ..
  have hle : done + buf2.len.toNat ≤ f.payload.length := by
    have hshort := hbuf.length_le
    rw [hbytes, List.length_drop, f.length_body] at hshort
    omega
  have hcont : r.contLen.toNat = done := by
    have hmin := h.contLen
    omega
  have hadd : (r.contLen + buf2.len.setWidth 64).toNat = done + buf2.len.toNat := by
    rw [BitVec.toNat_add, BitVec.toNat_setWidth, hcont]
    omega
  have hpos : sizeT r.contPos = done := by
    rw [h.contPos, sizeT_of_lt (by rw [hcont]; omega), hcont]
  have hstore : r.ret.store r.size done buf2.bytes = some _ :=
    Tape.store_of_le (by rw [hbytes, h.size]; omega)
  have hret : (r.ret.write done buf2.bytes).Holds 0 (f.body.take (done + buf2.len.toNat)) := by
    have hfront := h.ret.write_append (t := buf2.bytes)
    have htake : (f.body.take done).length = done := by
      rw [List.length_take, f.length_body]
      omega
    have hjoin : f.body.take done ++ buf2.bytes = f.body.take (done + buf2.len.toNat) := by
      rw [List.prefix_iff_eq_take.mp hbuf, hbytes, ← List.take_add]
    rwa [htake, Nat.zero_add, hjoin] at hfront
  have hmin : min (r.contLen + buf2.len.setWidth 64).toNat f.payload.length =
      done + buf2.len.toNat := by
    rw [hadd, Nat.min_eq_left hle]
  refine ⟨⟨f.header, _, f.payload.length + 1, _, _⟩, ⟨rfl, rfl, rfl, hmin, hret⟩, ?_⟩
  have hnot : ¬f.length < r.contLen + buf2.len.setWidth 64 := by
    rw [BitVec.lt_def, f.toNat_length, hadd]
    omega
  rw [wsReadMore, h.header]
  simp only [Frame.header, if_neg hnot, hpos, hstore, Bind.bind, Option.bind_some]
  rw [← h.size, h.contPos]
  rfl

theorem Frame.after_unfinished (f : Frame) (client : WsClient) (n : BitVec 32) :
    f.after { client with unfinished := n } = { f.after client with unfinished := n } := by
  by_cases hfin : f.fin = true
  · simp [Frame.after, hfin]
  · by_cases hcont : f.Continues client
    · have hcont' : f.Continues { client with unfinished := n } := hcont
      simp [Frame.after, hfin, hcont, hcont']
    · have hcont' : ¬f.Continues { client with unfinished := n } := hcont
      by_cases hstart : f.opcode = Opcode.bin ∨ f.opcode = Opcode.text
      · simp [Frame.after, hfin, hcont, hcont', hstart]
      · simp [Frame.after, hfin, hcont, hcont', hstart]

theorem Frame.unfinished_after : (f.after client).unfinished = client.unfinished := by
  rw [after]
  split
  · rfl
  · split
    · rfl
    · split <;> rfl

theorem WsClient.Sound.unfinished (h : client.Sound heap) (n : BitVec 32) :
    { client with unfinished := n }.Sound heap :=
  ⟨h.block, h.room⟩

theorem Frame.Fits.unfinished (h : f.Fits heap client) (n : BitVec 32) :
    f.Fits heap { client with unfinished := n } :=
  ⟨h.1, by rw [f.after_unfinished]; exact h.2⟩

end Pieces

/-! ### Frames in pieces -/

/-- The pieces carry the frame.  Its head is whole in the first, and where it is whole in one piece
there may be other bytes behind it.  `ws_read` drops these, so they are no frame even if they read
like one. -/
inductive Frame.Carries (f : Frame) : List Netbuf → Prop
  | whole {buf : Netbuf} : f.bytes <+: buf.bytes → f.Carries [buf]
  | pieces {buf : Netbuf} {more : List Netbuf} : f.head.length ≤ buf.len.toNat →
      buf.bytes ++ (more.map Netbuf.bytes).flatten = f.bytes → (∀ b ∈ more, b.bytes ≠ []) →
      f.Carries (buf :: more)

/-- The pieces carry the payload from `done` on. -/
structure Frame.Carried (f : Frame) (done : Nat) (bufs : List Netbuf) : Prop where
  bytes : (bufs.map Netbuf.bytes).flatten = f.body.drop done
  nonempty : ∀ buf ∈ bufs, buf.bytes ≠ []

section Carried

variable {heap : Heap} {client : WsClient} {f : Frame} {r : Reading} {done : Nat}
  {buf : Netbuf} {bufs rest : List Netbuf}

@[simp] theorem Netbuf.length_bytes (buf : Netbuf) : buf.bytes.length = buf.len.toNat :=
  Tape.length_read ..

theorem Frame.Carries.first (h : f.Carries bufs) :
    ∃ buf more n, bufs = buf :: more ∧ buf.data.Holds 0 (f.head ++ f.body.take n) ∧
      buf.len.toNat = f.head.length + n ∧ f.Carried (min n f.payload.length) more := by
  cases h with
  | @whole buf hbytes =>
    obtain ⟨behind, hbehind⟩ := hbytes
    have hlen := congrArg List.length hbehind
    rw [buf.length_bytes, Frame.bytes, List.length_append, List.length_append, f.length_body] at hlen
    have hbuf := Tape.holds_read buf.data 0 buf.len.toNat
    rw [← Netbuf.bytes, ← hbehind] at hbuf
    refine ⟨buf, [], f.payload.length + behind.length, rfl, ?_, by omega, ?_, by simp⟩
    · rw [List.take_of_length_le (by rw [f.length_body]; omega)]
      exact (Tape.holds_append.mp hbuf).1
    · rw [Nat.min_eq_right (by omega), ← f.length_body, List.drop_length]
      rfl
  | @pieces buf more hhead hbytes hnonempty =>
    have hbuf := Tape.holds_read buf.data 0 buf.len.toNat
    have hstart : buf.bytes = f.head ++ f.body.take (buf.len.toNat - f.head.length) := by
      have htake := congrArg (List.take buf.len.toNat) hbytes
      rw [← buf.length_bytes, List.take_left, Frame.bytes, List.take_append,
        List.take_of_length_le (by rw [buf.length_bytes]; exact hhead), buf.length_bytes] at htake
      exact htake
    have hrest : (more.map Netbuf.bytes).flatten =
        f.body.drop (buf.len.toNat - f.head.length) := by
      have hdrop := congrArg (List.drop buf.len.toNat) hbytes
      rw [← buf.length_bytes, List.drop_left, Frame.bytes, List.drop_append,
        List.drop_of_length_le (by rw [buf.length_bytes]; exact hhead), buf.length_bytes] at hdrop
      exact hdrop
    rw [← Netbuf.bytes, hstart] at hbuf
    refine ⟨buf, more, buf.len.toNat - f.head.length, rfl, hbuf, by omega, ?_, hnonempty⟩
    rw [hrest]
    rcases Nat.le_total (buf.len.toNat - f.head.length) f.payload.length with hle | hle
    · rw [Nat.min_eq_left hle]
    · rw [Nat.min_eq_right hle, List.drop_of_length_le (by rw [f.length_body]; exact hle),
        List.drop_of_length_le (by rw [f.length_body])]

theorem Frame.Carried.le (h : f.Carried done []) : f.payload.length ≤ done := by
  have hbytes := h.bytes
  rw [List.map_nil, List.flatten_nil, eq_comm, List.drop_eq_nil_iff, f.length_body] at hbytes
  exact hbytes

theorem Frame.Carried.cons (h : f.Carried done (buf :: bufs)) :
    done < f.payload.length ∧ buf.bytes <+: f.body.drop done ∧
      f.Carried (done + buf.len.toNat) bufs := by
  have hbytes := h.bytes
  rw [List.map_cons, List.flatten_cons] at hbytes
  refine ⟨?_, ⟨_, hbytes⟩, ?_, fun b hb => h.nonempty b (List.mem_cons_of_mem _ hb)⟩
  · by_contra hge
    rw [List.drop_of_length_le (by rw [f.length_body]; omega)] at hbytes
    exact h.nonempty buf List.mem_cons_self (List.append_eq_nil_iff.mp hbytes).1
  · have hdrop := congrArg (List.drop buf.len.toNat) hbytes
    rw [← buf.length_bytes, List.drop_left, buf.length_bytes, List.drop_drop] at hdrop
    exact hdrop

/-- The loop ends with the last of the pieces that carry the frame. -/
theorem wsReadLoop_eq (h : r.Has f done) (hsound : client.Sound heap) (hfits : f.Fits heap client)
    (hcarried : f.Carried done bufs) :
    wsReadLoop heap client r =
      some (if bufs = [] then .returns (f.after client) f.message else .waits client r) := by
  have hmin := h.contLen
  have htest : r.contLen < r.header.length ↔ r.contLen.toNat < f.payload.length := by
    rw [h.header, BitVec.lt_def, Frame.header, f.toNat_length]
  rw [wsReadLoop]
  cases bufs with
  | nil =>
    have hle := hcarried.le
    obtain rfl : done = f.payload.length := by omega
    rw [if_neg (by rw [htest]; omega), if_pos rfl, wsReadEnd_eq h hsound hfits]
  | cons buf bufs =>
    have hlt := hcarried.cons.1
    rw [if_pos (htest.mpr (by omega)), if_neg (List.cons_ne_nil _ _)]

theorem wsReadPieces_returns (client : WsClient) (msg : Option (WsHeader × List Byte))
    (bufs : List Netbuf) :
    wsReadPieces heap (.returns client msg) bufs = some (.returns client msg, bufs) := by
  cases bufs <;> rfl

theorem wsReadPieces_eq (h : r.Has f done) (hsound : client.Sound heap)
    (hfits : f.Fits heap client) (hcarried : f.Carried done bufs) :
    (wsReadLoop heap client r).bind (wsReadPieces heap · (bufs ++ rest)) =
      some (.returns
        { f.after client with unfinished := client.unfinished + BitVec.ofNat 32 bufs.length }
        f.message, rest) := by
  induction bufs generalizing client r done with
  | nil =>
    have hafter := f.after_unfinished client client.unfinished
    have hsame : ({ client with unfinished := client.unfinished } : WsClient) = client := rfl
    rw [hsame] at hafter
    rw [wsReadLoop_eq h hsound hfits hcarried, if_pos rfl, List.length_nil, BitVec.add_zero,
      ← hafter]
    exact wsReadPieces_returns ..
  | cons buf bufs ih =>
    obtain ⟨hlt, hbuf, hrest⟩ := hcarried.cons
    obtain ⟨r', hr', hmore⟩ := wsReadMore_eq h hfits hlt hbuf
    rw [wsReadLoop_eq h hsound hfits hcarried, if_neg (List.cons_ne_nil _ _), Option.bind_some,
      List.cons_append, wsReadPieces, hmore]
    refine (ih hr' (hsound.unfinished _) (hfits.unfinished _) hrest).trans ?_
    have hcount : client.unfinished + 1 + BitVec.ofNat 32 bufs.length =
        client.unfinished + BitVec.ofNat 32 (buf :: bufs).length := by
      rw [List.length_cons, BitVec.ofNat_add, BitVec.add_assoc, BitVec.add_comm 1]
      rfl
    rw [f.after_unfinished, hcount]

/-- A frame is read as it was made, whatever the pieces are that it comes in, and none of the pieces
behind them is taken. -/
theorem wsRead_eq (hunfinished : client.unfinished = 0) (hsound : client.Sound heap)
    (hfits : f.Fits heap client) (h : f.Carries bufs) :
    wsRead heap client (bufs ++ rest) =
      some (.returns { f.after client with unfinished := BitVec.ofNat 32 (bufs.length - 1) }
        f.message, rest) := by
  obtain ⟨buf, more, n, rfl, hbuf, hlen, hcarried⟩ := h.first
  obtain ⟨r, hr, hfirst⟩ := wsReadFirst_eq hfits hbuf hlen
  have hpieces : (wsReadLoop heap client r).bind (wsReadPieces heap · (more ++ rest)) = _ :=
    wsReadPieces_eq hr hsound hfits hcarried
  have hcount : client.unfinished + BitVec.ofNat 32 more.length = BitVec.ofNat 32 more.length := by
    rw [hunfinished]
    exact BitVec.zero_add _
  rw [hcount] at hpieces
  rw [List.length_cons, Nat.add_sub_cancel, ← hpieces, ← hfirst]
  exact if_neg (not_not.mpr hunfinished)

/-- What `ws_send` writes comes back from `ws_read`, in whatever pieces it arrives. -/
theorem wsRead_wsSend {opcode : BitVec 4} {msg : List Byte} {key : Option Key}
    {more : List Netbuf} (hunfinished : client.unfinished = 0) (hroom : msg.length < heap.room)
    (hsound : client.Sound heap)
    (hhead : (wsSend opcode msg key).length ≤ msg.length + buf.len.toNat)
    (hbytes : buf.bytes ++ (more.map Netbuf.bytes).flatten = wsSend opcode msg key)
    (hmore : ∀ b ∈ more, b.bytes ≠ []) :
    ∃ header : WsHeader, header.length.toNat = msg.length ∧ header.key = key ∧
      wsRead heap client (buf :: more ++ rest) =
        some (.returns
          { client with lastOpcode := opcode, unfinished := BitVec.ofNat 32 more.length }
          (some (header, msg)), rest) := by
  have hroom' := heap.room_lt
  have hlength : msg.length < 2 ^ 64 := by omega
  let f : Frame := ⟨true, 0, opcode, key, msg, hlength⟩
  have hsend : wsSend opcode msg key = f.bytes := wsSend_eq opcode msg key hlength
  rw [hsend, Frame.bytes, List.length_append, f.length_body] at hhead
  have hhead' : f.head.length + msg.length ≤ msg.length + buf.len.toNat := hhead
  have hfits : f.Fits heap client := ⟨hroom, hsound.room⟩
  have hcarries : f.Carries (buf :: more) :=
    .pieces (by omega) (hbytes.trans hsend) hmore
  exact ⟨f.header, f.toNat_length, rfl, wsRead_eq hunfinished hsound hfits hcarries⟩

end Carried

def pieceOf (bytes : List Byte) : Netbuf := ⟨fun i => bytes.getD i 0, BitVec.ofNat 16 bytes.length⟩

def heap100 : Heap := ⟨100, fun _ => 0, by decide⟩

def newClient : WsClient := ⟨none, none, false, Opcode.cont, none, 0, 0⟩

def countingKey : Key := fun i => BitVec.ofNat 8 (i + 1)

/-- A masked text, with the last byte in a second piece, and a piece behind them. -/
theorem wsRead_wsSend_masked :
    ∃ header : WsHeader, header.length.toNat = 3 ∧ header.key = some countingKey ∧
      wsRead heap100 newClient
        (pieceOf [0x81, 0x83, 1, 2, 3, 4, 0x60, 0x60] :: [pieceOf [0x60]] ++ [pieceOf [0]]) =
        some (.returns { newClient with lastOpcode := Opcode.text, unfinished := 1 }
          (some (header, [0x61, 0x62, 0x63])), [pieceOf [0]]) := by
  have hsend : wsSend Opcode.text [0x61, 0x62, 0x63] (some countingKey) =
      [0x81, 0x83, 1, 2, 3, 4, 0x60, 0x60, 0x60] := by decide
  have hhead : (wsSend Opcode.text [0x61, 0x62, 0x63] (some countingKey)).length ≤
      [(0x61 : Byte), 0x62, 0x63].length + 8 := by rw [hsend]; decide
  have hbytes : (pieceOf [0x81, 0x83, 1, 2, 3, 4, 0x60, 0x60]).bytes ++
      ([pieceOf [0x60]].map Netbuf.bytes).flatten =
        wsSend Opcode.text [0x61, 0x62, 0x63] (some countingKey) := by rw [hsend]; decide
  have hsound : newClient.Sound heap100 := ⟨Nat.zero_le _, Nat.zero_le _⟩
  exact wsRead_wsSend rfl (by decide) hsound hhead hbytes (by decide)

end VhomeBridge.WebSocket
