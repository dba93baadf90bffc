import Mathlib.Algebra.BigOperators.Group.List.Basic
import VhomeBridge.WebSocket.Sessions

/-! The messages of a connection.  While the task reads one connection, pieces of that and of others
arrive, and events for pieces that were read with others wait in the queue; `unfinished` counts them.
The messages that a client is given are those of the frames that its peer sends, in their order, and
none is missing once all has been read. -/

namespace VhomeBridge.WebSocket

open Lib

namespace Frame

variable (f : Frame)

/-- What the client is told of a frame.  It is told nothing of one that is not final, and the
bytes of a continuation are not kept. -/
def call : Option Call :=
  if f.fin then
    if f.opcode = Opcode.bin then some (.bin f.payload)
    else if f.opcode = Opcode.text then some (.text f.payload)
    else if f.opcode = Opcode.ping then some (.ping f.payload)
    else if f.opcode = Opcode.close then some .disconnectExternal
    else none
  else none

def Closes : Prop := f.fin ∧ f.opcode = Opcode.close

instance : Decidable f.Closes := inferInstanceAs (Decidable (_ ∧ _))

end Frame

/-- What the client is told of frames, as far as the first that closes the connection. -/
def deliveries : List Frame → List Call
  | [] => []
  | f :: fs => f.call.toList ++ if f.Closes then [] else deliveries fs

/-- The pieces carry the frames, one after another. -/
inductive Streams : List Frame → List Netbuf → Prop
  | nil : Streams [] []
  | cons {f : Frame} {fs : List Frame} {bufs rest : List Netbuf} :
      f.Carries bufs → Streams fs rest → Streams (f :: fs) (bufs ++ rest)

/-- The heap has room for the frames, read one after another. -/
def FitsAll (heap : Heap) : WsClient → List Frame → Prop
  | _, [] => True
  | client, f :: fs => f.Fits heap client ∧ FitsAll heap (f.after client) fs

/-- What a client has of the frames so far. -/
def WsClient.stored (client : WsClient) : BitVec 4 × Option Nat × BitVec 64 :=
  (client.lastOpcode, client.contin, client.len)

section Stored

variable {heap : Heap} {client client' : WsClient} {f : Frame} {fs : List Frame}

theorem WsClient.Sound.congr (h : client.Sound heap) (hsame : client'.stored = client.stored) :
    client'.Sound heap := by
  obtain ⟨-, hcontin, hlen⟩ : client'.lastOpcode = client.lastOpcode ∧
      client'.contin = client.contin ∧ client'.len = client.len := by simpa [stored] using hsame
  exact ⟨by rw [hcontin, hlen]; exact h.block, by rw [hlen]; exact h.room⟩

theorem Frame.stored_after (f : Frame) (hsame : client'.stored = client.stored) :
    (f.after client').stored = (f.after client).stored := by
  obtain ⟨hop, hcontin, hlen⟩ : client'.lastOpcode = client.lastOpcode ∧
      client'.contin = client.contin ∧ client'.len = client.len := by
    simpa [WsClient.stored] using hsame
  have hcont : f.Continues client' ↔ f.Continues client := by rw [Continues, Continues, hop]
  simp only [after, hcont]
  split
  · simp [WsClient.stored, hcontin, hlen]
  · split
    · simp [WsClient.stored, hop, hlen]
    · split
      · simp [WsClient.stored]
      · exact hsame

theorem Frame.Fits.congr (h : f.Fits heap client) (hsame : client'.stored = client.stored) :
    f.Fits heap client' := by
  have hlen : (f.after client').len = (f.after client).len :=
    congrArg (fun st => st.2.2) (f.stored_after hsame)
  exact ⟨h.1, by rw [hlen]; exact h.2⟩

theorem FitsAll.congr (h : FitsAll heap client fs) (hsame : client'.stored = client.stored) :
    FitsAll heap client' fs := by
  induction fs generalizing client client' with
  | nil => trivial
  | cons f fs ih => exact ⟨h.1.congr hsame, ih h.2 (f.stored_after hsame)⟩

theorem Frame.sound_after (hfits : f.Fits heap client) (hsound : client.Sound heap) :
    (f.after client).Sound heap := by
  refine ⟨?_, hfits.2⟩
  by_cases hfin : f.fin = true
  · simpa [after, hfin] using hsound.block
  · by_cases hcont : f.Continues client
    · have hsum : (f.length + client.len).toNat = client.len.toNat + f.payload.length := by
        have hroom := heap.room_lt
        have := hfits.1
        have := hsound.room
        rw [BitVec.toNat_add, f.toNat_length]
        omega
      simp [after, hfin, hcont, hsum]
    · by_cases hstart : f.opcode = Opcode.bin ∨ f.opcode = Opcode.text
      · simp [after, hfin, hcont, hstart, f.toNat_length]
      · simpa [after, hfin, hcont, hstart] using hsound.block

end Stored

/-- How far the frames of a connection are read: `ws_read` is not reading it, waits for the first
piece of the next frame, or waits for another piece. -/
inductive Progress (client : WsClient) :
    Option (Option Reading) → List Frame → List Netbuf → Prop
  | idle {fs : List Frame} {todo : List Netbuf} : Streams fs todo → Progress client none fs todo
  | first {fs : List Frame} {todo : List Netbuf} : client.unfinished = 0 → Streams fs todo →
      Progress client (some none) fs todo
  | amid {f : Frame} {fs : List Frame} {buf : Netbuf} {bufs rest : List Netbuf} {r : Reading}
      {done : Nat} : r.Has f done → f.Carried done (buf :: bufs) →
      client.unfinished.toNat + (buf :: bufs).length < 2 ^ 32 → Streams fs rest →
      Progress client (some (some r)) (f :: fs) (buf :: bufs ++ rest)

/-- The client of a connection with the frames still to be read. -/
structure Held (heap : Heap) (client : WsClient) (reading : Option (Option Reading))
    (fs : List Frame) (todo : List Netbuf) : Prop where
  sound : client.Sound heap
  fits : FitsAll heap client fs
  progress : Progress client reading fs todo

/-- 1 where `ws_read` waits for the first piece of a frame. -/
def begun : Option (Option Reading) → Nat
  | some none => 1
  | _ => 0

/-- What is held once `ws_read` has taken a piece. -/
def Held.Next (heap : Heap) (fs : List Frame) (todo : List Netbuf) : Read → Prop
  | .waits client r => Held heap client (some (some r)) fs todo
  | .returns client msg => ∃ f fs', fs = f :: fs' ∧ msg = f.message ∧
      (f.fin = true → client.lastOpcode = f.opcode) ∧ Held heap client none fs' todo

section Held

variable {heap : Heap} {client client' : WsClient} {f : Frame} {fs : List Frame} {r : Reading}
  {buf : Netbuf} {bufs rest todo : List Netbuf} {done : Nat}

theorem Frame.Carried.length_le (h : f.Carried done bufs) : bufs.length ≤ f.payload.length := by
  have hlen := congrArg List.length h.bytes
  rw [List.length_flatten, List.length_drop, f.length_body, List.map_map] at hlen
  have hsum : bufs.length ≤ (bufs.map (List.length ∘ Netbuf.bytes)).sum := by
    have hone : ∀ n ∈ bufs.map (List.length ∘ Netbuf.bytes), 1 ≤ n := by
      intro n hn
      obtain ⟨b, hb, rfl⟩ := List.mem_map.mp hn
      exact List.length_pos_iff.mpr (h.nonempty b hb)
    simpa using List.length_le_sum_of_one_le _ hone
  omega

/-- The loop goes on with what is left of the frame, or the frame is read. -/
theorem Held.loop (hsound : client.Sound heap) (hfits : FitsAll heap client (f :: fs))
    (hr : r.Has f done) (hcarried : f.Carried done bufs)
    (hcount : client.unfinished.toNat + bufs.length < 2 ^ 32) (hrest : Streams fs rest) :
    ∃ read, wsReadLoop heap client r = some read ∧ read.client.unfinished = client.unfinished ∧
      Held.Next heap (f :: fs) (bufs ++ rest) read := by
  refine ⟨_, wsReadLoop_eq hr hsound hfits.1 hcarried, ?_⟩
  cases bufs with
  | nil =>
    rw [if_pos rfl]
    refine ⟨f.unfinished_after, f, fs, rfl, rfl, fun hfin => ?_,
      f.sound_after hfits.1 hsound, hfits.2, .idle hrest⟩
    rw [Frame.after, if_pos hfin]
  | cons buf bufs =>
    rw [if_neg (List.cons_ne_nil _ _)]
    exact ⟨rfl, hsound, hfits, .amid hr hcarried hcount hrest⟩

theorem Held.first (h : Held heap client (some none) fs (buf :: todo)) :
    ∃ read, wsReadPiece heap client buf none = some read ∧
      read.client.unfinished = client.unfinished ∧ Held.Next heap fs todo read := by
  obtain ⟨hsound, hfits, hprogress⟩ := h
  generalize htodo : buf :: todo = all at hprogress
  cases hprogress with
  | first hzero hstreams =>
    cases hstreams with
    | nil => cases htodo
    | @cons f fs bufs rest hcarries hrest =>
      obtain ⟨buf', more, n, rfl, hbuf, hlen, hcarried⟩ := hcarries.first
      obtain ⟨rfl, rfl⟩ : buf = buf' ∧ todo = more ++ rest := by simpa using htodo
      obtain ⟨r, hr, hread⟩ := wsReadFirst_eq hfits.1 hbuf hlen
      have hshort := hcarried.length_le
      have hroom := heap.room_lt
      have hpayload := hfits.1.1
      have hcount : client.unfinished.toNat + more.length < 2 ^ 32 := by
        rw [hzero]
        exact (Nat.zero_add _).trans_lt (by omega)
      rw [wsReadPiece, hread]
      exact Held.loop hsound hfits hr hcarried hcount hrest

theorem Held.amid (h : Held heap client (some (some r)) fs (buf :: todo)) :
    ∃ read, wsReadPiece heap client buf (some r) = some read ∧
      read.client.unfinished.toNat = client.unfinished.toNat + 1 ∧ Held.Next heap fs todo read := by
  obtain ⟨hsound, hfits, hprogress⟩ := h
  generalize htodo : buf :: todo = all at hprogress
  cases hprogress with
  | @amid f fs buf' bufs rest r done hr hcarried hcount hrest =>
    obtain ⟨rfl, rfl⟩ : buf = buf' ∧ todo = bufs ++ rest := by simpa using htodo
    obtain ⟨hlt, hbuf, hmore⟩ := hcarried.cons
    obtain ⟨r', hr', hread⟩ := wsReadMore_eq hr hfits.1 hlt hbuf
    rw [List.length_cons] at hcount
    have hone : (client.unfinished + 1).toNat = client.unfinished.toNat + 1 :=
      BitVec.toNat_add_of_lt (y := 1) (by simpa using (by omega : _ < 2 ^ 32))
    have hcount' : (client.unfinished + 1).toNat + bufs.length < 2 ^ 32 := by omega
    have hsame : { client with unfinished := client.unfinished + 1 }.stored = client.stored := rfl
    obtain ⟨read, hloop, hunfinished, hnext⟩ := Held.loop (hsound.congr hsame) (hfits.congr hsame)
      hr' hmore hcount' hrest
    exact ⟨read, by rw [wsReadPiece, hread, hloop], by rw [hunfinished, hone], hnext⟩

/-- A piece behind the first of a frame is counted in `unfinished`. -/
theorem Held.piece {r : Option Reading} (h : Held heap client (some r) fs (buf :: todo)) :
    ∃ read, wsReadPiece heap client buf r = some read ∧
      read.client.unfinished.toNat + begun (some r) = client.unfinished.toNat + 1 ∧
      Held.Next heap fs todo read := by
  cases r with
  | none =>
    obtain ⟨read, hread, hunfinished, hnext⟩ := h.first
    exact ⟨read, hread, by rw [hunfinished]; rfl, hnext⟩
  | some r =>
    obtain ⟨read, hread, hunfinished, hnext⟩ := h.amid
    exact ⟨read, hread, hunfinished, hnext⟩

/-- What is held is that of the frames alone, where `ws_read` is not reading. -/
theorem Held.congr (h : Held heap client none fs todo) (hsame : client'.stored = client.stored) :
    Held heap client' none fs todo := by
  obtain ⟨hsound, hfits, hprogress⟩ := h
  cases hprogress with
  | idle hstreams => exact ⟨hsound.congr hsame, hfits.congr hsame, .idle hstreams⟩

end Held

/-! ### The server and one connection -/

namespace Server

/-- How far `ws_read` is with a connection, if it is reading it. -/
def readingOf (s : Server) (conn : Netconn) : Option (Option Reading) :=
  s.reading.bind fun t => if t.2.1 = conn then some t.2.2 else none

section HandleRead

variable {s : Server} {num i : Num} {conn c : Netconn} {client : WsClient} {f : Frame}

/-- What `handle_read` leaves alone. -/
theorem handleRead_frame (s : Server) (num : Num) (conn : Netconn) (client : WsClient)
    (received : Option (WsHeader × List Byte)) :
    (s.handleRead num conn client received).mbox = s.mbox ∧
      (s.handleRead num conn client received).queue = s.queue ∧
      (s.handleRead num conn client received).pending = s.pending := by
  cases received with
  | none => exact ⟨rfl, rfl, rfl⟩
  | some received =>
    rw [handleRead]
    repeat' split
    all_goals exact ⟨rfl, rfl, rfl⟩

theorem handleRead_incoming_of_ne (hne : conn ≠ c) (received : Option (WsHeader × List Byte)) :
    incoming c (s.handleRead num conn client received).log = incoming c s.log := by
  cases received with
  | none => rfl
  | some received =>
    rw [handleRead]
    repeat' split
    all_goals simp [disconnect, wsDisconnectClient, wsSend, scallback, put, setClient, hne]

/-- The client is told of the frame. -/
theorem handleRead_incoming (hop : f.fin = true → client.lastOpcode = f.opcode) :
    incoming conn (s.handleRead num conn client f.message).log =
      incoming conn s.log ++ f.call.toList := by
  by_cases hfin : f.fin = true
  · rw [Frame.message, if_pos hfin, Frame.call, if_pos hfin, handleRead, hop hfin]
    by_cases hbin : f.opcode = Opcode.bin
    · simp [hbin, scallback, put, setClient, Call.incoming]
    · by_cases htext : f.opcode = Opcode.text
      · rw [if_neg hbin, if_pos htext, if_neg hbin, if_pos htext]
        simp [scallback, put, setClient, Call.incoming]
      · by_cases hping : f.opcode = Opcode.ping
        · rw [if_neg hbin, if_neg htext, if_pos hping, if_neg hbin, if_neg htext, if_pos hping]
          simp [scallback, wsSend, put, setClient, Call.incoming]
        · by_cases hpong : f.opcode = Opcode.pong
          · have hclose : f.opcode ≠ Opcode.close := by rw [hpong]; decide
            rw [if_neg hbin, if_neg htext, if_neg hping, if_pos hpong, if_neg hbin, if_neg htext,
              if_neg hping, if_neg hclose]
            split
            · simp [scallback, put, setClient, Call.incoming]
            · simp [setClient]
          · rw [if_neg hbin, if_neg htext, if_neg hping, if_neg hpong, if_neg hbin, if_neg htext,
              if_neg hping]
            by_cases hclose : f.opcode = Opcode.close
            · rw [if_pos hclose, if_pos hclose]
              simp [disconnect, wsDisconnectClient, scallback, wsSend, put, setClient,
                Call.incoming]
            · rw [if_neg hclose, if_neg hclose]
              simp [setClient]
  · rw [Frame.message, if_neg hfin, Frame.call, if_neg hfin]
    exact (List.append_nil _).symm

theorem handleRead_closes (hop : f.fin = true → client.lastOpcode = f.opcode) (h : f.Closes) :
    ((s.handleRead num conn client f.message).clients num).conn = none := by
  obtain ⟨hfin, hclose⟩ := h
  rw [Frame.message, if_pos hfin, handleRead, hop hfin, hclose]
  simp [Opcode.bin, Opcode.text, Opcode.ping, Opcode.pong, Opcode.close, disconnect,
    wsDisconnectClient, setClient]

theorem handleRead_open (hop : f.fin = true → client.lastOpcode = f.opcode) (h : ¬f.Closes) :
    ∃ p, (s.handleRead num conn client f.message).clients num = { client with ping := p } := by
  by_cases hfin : f.fin = true
  · have hnot : client.lastOpcode ≠ Opcode.close := fun hclose =>
      h ⟨hfin, (hop hfin).symm.trans hclose⟩
    rw [Frame.message, if_pos hfin, handleRead, if_neg hnot]
    repeat' split
    all_goals exact ⟨_, setClient_self ..⟩
  · rw [Frame.message, if_neg hfin]
    exact ⟨client.ping, setClient_self ..⟩

end HandleRead

end Server

/-- How the server stands to a connection over which the frames `fs` come in.  The pieces `future`
are still to arrive. -/
inductive Serves (heap : Heap) (c : Netconn) (fs : List Frame) (future : List Netbuf) (s : Server)
    (brought : Prop) : Prop
  | before : ¬brought → (∀ i, (s.clients i).conn ≠ some c) → incoming c s.log = [] →
      Streams fs (s.mbox c ++ future) → Serves heap c fs future s brought
  | during {i : Num} {rest : List Frame} : brought → (s.clients i).conn = some c →
      Held heap (s.clients i) (s.readingOf c) rest (s.mbox c ++ future) →
      incoming c s.log ++ deliveries rest = deliveries fs → Serves heap c fs future s brought
  | after : brought → (∀ i, (s.clients i).conn ≠ some c) →
      incoming c s.log <+: deliveries fs → Serves heap c fs future s brought

section Serves

variable {heap : Heap} {c conn : Netconn} {fs : List Frame} {future : List Netbuf} {s t : Server}
  {brought : Prop} {num : Num} {buf : Netbuf} {bufs : List Netbuf}

theorem Server.readingOf_none (h : s.reading = none) : s.readingOf c = none := by
  rw [readingOf, h, Option.bind_none]

theorem Server.readingOf_some {r : Option Reading} (h : s.reading = some (num, conn, r)) :
    s.readingOf c = if conn = c then some r else none := by
  rw [readingOf, h, Option.bind_some]

/-- A step that leaves the connection alone. -/
theorem Serves.same (h : Serves heap c fs future s brought) (hmbox : t.mbox c = s.mbox c)
    (hincoming : incoming c t.log = incoming c s.log) (hreading : t.readingOf c = s.readingOf c)
    (hother : ∀ i, (s.clients i).conn ≠ some c → (t.clients i).conn ≠ some c)
    (hclient : ∀ i, (s.clients i).conn = some c → t.clients i = s.clients i) :
    Serves heap c fs future t brought := by
  cases h with
  | before hnew hgone hlog hstreams =>
    exact .before hnew (fun i => hother i (hgone i)) (hincoming.trans hlog) (by rwa [hmbox])
  | @during i rest hbrought hconn hheld hlog =>
    have hi := hclient i hconn
    exact .during hbrought (by rwa [hi]) (by rwa [hi, hreading, hmbox]) (by rwa [hincoming])
  | after hbrought hgone hlog =>
    exact .after hbrought (fun i => hother i (hgone i)) (by rwa [hincoming])

/-- What another task does with the clients. -/
theorem Serves.acts (h : Serves heap c fs future s brought) (hacts : s.Acts t)
    (hidle : s.reading = none)
    (hdistinct : ∀ i j, (s.clients i).conn = some c → (s.clients j).conn = some c → i = j) :
    Serves heap c fs future t brought := by
  have hother : ∀ i, (t.clients i).conn = some c → (s.clients i).conn = some c := by
    intro i hi
    rcases hacts.client i with hnone | ⟨p, hp⟩
    · rw [hnone] at hi
      cases hi
    · rwa [hp] at hi
  have hmbox := congrFun hacts.mbox c
  have hreading : t.readingOf c = none := Server.readingOf_none (hacts.reading.trans hidle)
  cases h with
  | before hnew hgone hlog hstreams =>
    exact .before hnew (fun i hi => hgone i (hother i hi)) ((hacts.incoming c).trans hlog)
      (by rwa [hmbox])
  | @during i rest hbrought hconn hheld hlog =>
    rw [Server.readingOf_none hidle] at hheld
    rcases hacts.client i with hnone | ⟨p, hp⟩
    · refine .after hbrought (fun j hj => ?_) ⟨deliveries rest, by rwa [hacts.incoming c]⟩
      obtain rfl := hdistinct i j hconn (hother j hj)
      rw [hnone] at hj
      cases hj
    · exact .during (i := i) hbrought (by rwa [hp])
        (by rw [hreading, hmbox, hp]; exact hheld.congr rfl) (by rwa [hacts.incoming c])
  | after hbrought hgone hlog =>
    exact .after hbrought (fun i hi => hgone i (hother i hi)) (by rwa [hacts.incoming c])

theorem Serves.receive (h : Serves heap c fs ((if conn = c then [buf] else []) ++ future) s brought)
    (pending : Option Netconn) :
    Serves heap c fs future
      { s with mbox := Function.update s.mbox conn (s.mbox conn ++ [buf]), pending := pending }
      brought := by
  by_cases hc : conn = c
  · subst hc
    rw [if_pos rfl] at h
    have hmbox : Function.update s.mbox conn (s.mbox conn ++ [buf]) conn ++ future =
        s.mbox conn ++ ([buf] ++ future) := by
      rw [Function.update_self, List.append_assoc]
    cases h with
    | before hnew hgone hlog hstreams => exact .before hnew hgone hlog (by rwa [hmbox])
    | during hbrought hconn hheld hlog => exact .during hbrought hconn (by rwa [hmbox]) hlog
    | after hbrought hgone hlog => exact .after hbrought hgone hlog
  · rw [if_neg hc, List.nil_append] at h
    exact h.same (Function.update_of_ne (Ne.symm hc) ..) rfl rfl (fun _ hi => hi) fun _ _ => rfl

/-- The turn of the task, for any connection. -/
theorem Serves.turn (h : Serves heap c fs future s brought) (hidle : s.reading = none)
    (hdistinct : ∀ i j, (s.clients i).conn = some c → (s.clients j).conn = some c → i = j) :
    Serves heap c fs future (s.turn conn) brought := by
  rw [Server.turn]
  split
  · exact h
  · rename_i num hfind
    have hnum := Server.find_conn hfind
    dsimp only
    split
    · by_cases hc : conn = c
      · subst hc
        have hset : ((s.setClient num { s.clients num with
            unfinished := (s.clients num).unfinished - 1 }).clients num).stored =
            (s.clients num).stored := by rw [Server.setClient_self]; rfl
        cases h with
        | before hnew hgone => exact absurd hnum (hgone num)
        | @during i rest hbrought hconn hheld hlog =>
          obtain rfl := hdistinct i num hconn hnum
          rw [Server.readingOf_none hidle] at hheld
          refine .during (i := i) hbrought (by rw [Server.setClient_self]; exact hconn) ?_ hlog
          have hreading : (s.setClient i { s.clients i with
              unfinished := (s.clients i).unfinished - 1 }).readingOf conn = none :=
            Server.readingOf_none hidle
          rw [hreading]
          exact hheld.congr hset
        | after hbrought hgone => exact absurd hnum (hgone num)
      · have hne : ∀ i, (s.clients i).conn = some c → i ≠ num := by
          rintro i hi rfl
          exact hc (Option.some.inj (hnum.symm.trans hi))
        refine h.same rfl rfl rfl (fun i hi => ?_) fun i hi => Server.setClient_of_ne _ _ (hne i hi)
        by_cases hin : i = num
        · subst hin
          rw [Server.setClient_self]
          exact hi
        · rwa [Server.setClient_of_ne _ _ hin]
    · rename_i hzero
      have hzero' : (s.clients num).unfinished = 0 := not_not.mp hzero
      by_cases hc : conn = c
      · subst hc
        cases h with
        | before hnew hgone => exact absurd hnum (hgone num)
        | @during i rest hbrought hconn hheld hlog =>
          obtain rfl := hdistinct i num hconn hnum
          rw [Server.readingOf_none hidle] at hheld
          obtain ⟨hsound, hfits, ⟨hstreams⟩⟩ := hheld
          refine .during (i := i) hbrought hconn ⟨hsound, hfits, ?_⟩ hlog
          rw [Server.readingOf_some rfl, if_pos rfl]
          exact .first hzero' hstreams
        | after hbrought hgone => exact absurd hnum (hgone num)
      · refine h.same rfl rfl ?_ (fun _ hi => hi) fun _ _ => rfl
        rw [Server.readingOf_some rfl, if_neg hc, Server.readingOf_none hidle]

/-- `ws_read` goes on with another connection. -/
theorem Serves.proceed_other (h : Serves heap c fs future s brought) {read : Read}
    (hc : conn ≠ c) (hconn : (s.clients num).conn = some conn)
    (hread : read.client.conn = some conn) (hreading : s.readingOf c = none) :
    Serves heap c fs future (s.proceed num conn read) brought := by
  have hne : ∀ i, (s.clients i).conn = some c → i ≠ num := by
    rintro i hi rfl
    exact hc (Option.some.inj (hconn.symm.trans hi))
  have hnot : ¬some conn = some c := fun heq => hc (Option.some.inj heq)
  cases read with
  | waits client r =>
    refine h.same rfl rfl ?_ (fun i hi => ?_) fun i hi => Server.setClient_of_ne s client (hne i hi)
    · rw [Server.proceed, Server.readingOf_some rfl, if_neg hc, hreading]
    · by_cases hin : i = num
      · subst hin
        rw [Server.proceed, Server.setClient_self]
        exact hread ▸ hnot
      · rwa [Server.proceed, Server.setClient_of_ne _ _ hin]
  | returns client received =>
    have hframe := Server.handleRead_frame { s with reading := none } num conn client received
    refine h.same (congrFun hframe.1 c) (Server.handleRead_incoming_of_ne hc received) ?_
      (fun i hi => ?_) fun i hi => Server.handleRead_of_ne (hne i hi) received
    · rw [hreading]
      exact Server.readingOf_none (Server.handleRead_reading ..)
    · by_cases hin : i = num
      · subst hin
        rcases Server.handleRead_self { s with reading := none } i conn client received with
          hnone | ⟨p, hp⟩
        · rw [Server.proceed, hnone]
          exact (Option.some_ne_none c).symm
        · rw [Server.proceed, hp]
          exact hread ▸ hnot
      · rwa [Server.proceed, Server.handleRead_of_ne hin]

/-- `ws_read` goes on with the connection. -/
theorem Serves.proceed_self {rest : List Frame} {todo : List Netbuf} {read : Read}
    (hbrought : brought) (hread : read.client.conn = some c)
    (hdistinct : ∀ i, (s.clients i).conn = some c → i = num)
    (hnext : Held.Next heap rest todo read) (htodo : s.mbox c ++ future = todo)
    (hlog : incoming c s.log ++ deliveries rest = deliveries fs) :
    Serves heap c fs future (s.proceed num c read) brought := by
  cases read with
  | waits client r =>
    refine .during (i := num) hbrought ?_ ?_ hlog
    · rw [Server.proceed, Server.setClient_self]
      exact hread
    · have hreading : (s.proceed num c (.waits client r)).readingOf c = some (some r) :=
        (Server.readingOf_some rfl).trans (if_pos rfl)
      have hmbox : (s.proceed num c (.waits client r)).mbox = s.mbox := rfl
      rw [hreading, hmbox, htodo, Server.proceed, Server.setClient_self]
      exact hnext
  | returns client received =>
    obtain ⟨f, fs', rfl, rfl, hop, hheld⟩ := hnext
    have hframe := Server.handleRead_frame { s with reading := none } num c client f.message
    have htold : incoming c (s.proceed num c (.returns client f.message)).log =
        incoming c s.log ++ f.call.toList := Server.handleRead_incoming hop
    rw [deliveries, ← List.append_assoc, ← htold] at hlog
    by_cases hcloses : f.Closes
    · rw [if_pos hcloses, List.append_nil] at hlog
      refine .after hbrought (fun i hi => ?_) (hlog ▸ List.prefix_rfl)
      by_cases hin : i = num
      · subst hin
        rw [Server.proceed, Server.handleRead_closes hop hcloses] at hi
        cases hi
      · rw [Server.proceed, Server.handleRead_of_ne hin] at hi
        exact hin (hdistinct i hi)
    · rw [if_neg hcloses] at hlog
      obtain ⟨p, hp⟩ : ∃ p, (({ s with reading := none } : Server).handleRead num c client
          f.message).clients num = { client with ping := p } := Server.handleRead_open hop hcloses
      refine .during (i := num) hbrought ?_ ?_ hlog
      · rw [Server.proceed, hp]
        exact hread
      · have hreading : (s.proceed num c (.returns client f.message)).readingOf c = none :=
          Server.readingOf_none (Server.handleRead_reading ..)
        have hmbox : (s.proceed num c (.returns client f.message)).mbox = s.mbox := hframe.1
        rw [hreading, hmbox, htodo, Server.proceed, hp]
        exact hheld.congr rfl

theorem Serves.recv (h : Serves heap c fs future s brought) {r : Option Reading} {read : Read}
    (hreading : s.reading = some (num, conn, r)) (hconn : (s.clients num).conn = some conn)
    (hdistinct : ∀ i j, (s.clients i).conn = some c → (s.clients j).conn = some c → i = j)
    (hmbox : s.mbox conn = buf :: bufs)
    (hread : wsReadPiece heap (s.clients num) buf r = some read) :
    Serves heap c fs future
      ({ s with mbox := Function.update s.mbox conn bufs }.proceed num conn read) brought := by
  have hkeep : read.client.conn = some conn := (wsReadPiece_conn hread).trans hconn
  have hof : s.readingOf c = if conn = c then some r else none := Server.readingOf_some hreading
  by_cases hc : conn = c
  · subst hc
    cases h with
    | before hnew hgone => exact absurd hconn (hgone num)
    | @during i rest hbrought hconn' hheld hlog =>
      obtain rfl := hdistinct i num hconn' hconn
      rw [hof, if_pos rfl, hmbox, List.cons_append] at hheld
      obtain ⟨read', hread', -, hnext⟩ := hheld.piece
      obtain rfl : read = read' := Option.some.inj (hread.symm.trans hread')
      refine Serves.proceed_self hbrought hkeep (fun j hj => hdistinct j i hj hconn) hnext ?_ hlog
      exact congrArg (· ++ future) (Function.update_self ..)
    | after hbrought hgone => exact absurd hconn (hgone num)
  · rw [if_neg hc] at hof
    refine Serves.proceed_other (s := { s with mbox := Function.update s.mbox conn bufs })
      (h.same (Function.update_of_ne (Ne.symm hc) ..) rfl rfl (fun _ hi => hi) fun _ _ => rfl) hc
      hconn hkeep hof

/-- `netconn_recv` fails, which it does not while `ws_read` waits for the rest of a frame of the
connection. -/
theorem Serves.fail (h : Serves heap c fs future s brought) {r : Option Reading}
    (hreading : s.reading = some (num, conn, r)) (hconn : (s.clients num).conn = some conn)
    (hwhole : (s.readingOf c).join.isNone) (ht : s.step heap .fail = some t) :
    Serves heap c fs future t brought := by
  have hof : s.readingOf c = if conn = c then some r else none := Server.readingOf_some hreading
  rw [Server.step, hreading, Option.ite_none_right_eq_some] at ht
  obtain ⟨-, ht⟩ := ht
  cases r with
  | none =>
    obtain rfl := Option.some.inj ht
    by_cases hc : conn = c
    · rw [if_pos hc] at hof
      cases h with
      | before hnew hgone hlog hstreams => exact .before hnew hgone hlog hstreams
      | @during i rest hbrought hconn' hheld hlog =>
        obtain ⟨hsound, hfits, hprogress⟩ := hheld
        rw [hof] at hprogress
        cases hprogress with
        | first _ hstreams => exact .during hbrought hconn' ⟨hsound, hfits, .idle hstreams⟩ hlog
      | after hbrought hgone hlog => exact .after hbrought hgone hlog
    · rw [if_neg hc] at hof
      exact h.same rfl rfl hof.symm (fun _ hi => hi) fun _ _ => rfl
  | some r =>
    obtain ⟨read, hread, ht⟩ := Option.bind_eq_some_iff.mp ht
    obtain rfl := Option.some.inj ht
    have hc : conn ≠ c := by
      rintro rfl
      rw [hof, if_pos rfl] at hwhole
      cases hwhole
    rw [if_neg hc] at hof
    exact h.proceed_other hc hconn ((wsReadMore_conn hread).trans hconn) hof

theorem Serves.iff {brought' : Prop} (h : Serves heap c fs future s brought)
    (hiff : brought' ↔ brought) : Serves heap c fs future s brought' := by
  cases h with
  | before hnew => exact .before (mt hiff.mp hnew) ‹_› ‹_› ‹_›
  | during hbrought => exact .during (hiff.mpr hbrought) ‹_› ‹_› ‹_›
  | after hbrought => exact .after (hiff.mpr hbrought) ‹_› ‹_›

/-- The connection is handed to the server. -/
theorem Serves.add_self (h : Serves heap c fs future s brought) (hidle : s.reading = none)
    (hfits : ∀ url, FitsAll heap (wsConnectClient c url) fs) (url : Text) (handshake : List Byte)
    (hnew : ¬brought) : Serves heap c fs future (s.addClient c url handshake).1 True := by
  cases h with
  | before _ hgone hlog hstreams =>
    rcases Server.addClient_cases s c url handshake with hfull | ⟨i, hnone, hadd⟩
    · rw [hfull]
      exact .after trivial hgone ⟨deliveries fs, by simp [hlog]⟩
    · rw [hadd]
      have hreading : s.readingOf c = none := Server.readingOf_none hidle
      have hsound : (wsConnectClient c url).Sound heap := ⟨Nat.zero_le _, Nat.zero_le _⟩
      have hincoming : incoming c (s.log ++ [.write c handshake] ++ [.call i c .connect]) = [] := by
        simp [hlog, Call.incoming]
      refine .during (i := i) trivial ?_ ?_ (congrArg (· ++ deliveries fs) hincoming)
      · rw [Server.setClient_self]
        rfl
      · have hheld : Held heap (wsConnectClient c url) none fs (s.mbox c ++ future) :=
          ⟨hsound, hfits url, .idle hstreams⟩
        rw [← Server.readingOf_none (c := c) hidle] at hheld
        rw [Server.setClient_self]
        exact hheld
  | during hbrought => exact absurd hbrought hnew
  | after hbrought => exact absurd hbrought hnew

theorem Serves.add_other (h : Serves heap c fs future s brought) (hc : conn ≠ c) (url : Text)
    (handshake : List Byte) : Serves heap c fs future (s.addClient conn url handshake).1 brought := by
  rcases Server.addClient_cases s conn url handshake with hfull | ⟨i, hnone, hadd⟩
  · rw [hfull]
    exact h.same rfl (by simp) rfl (fun _ hi => hi) fun _ _ => rfl
  · rw [hadd]
    refine h.same rfl (by simp [Server.setClient, hc]) rfl (fun j hj => ?_) fun j hj => ?_
    · by_cases hji : j = i
      · subst hji
        rw [Server.setClient_self]
        exact fun heq => hc (Option.some.inj heq)
      · rwa [Server.setClient_of_ne _ _ hji]
    · refine Server.setClient_of_ne _ _ ?_
      rintro rfl
      rw [hnone] at hj
      cases hj

end Serves

/-- The pieces of a connection that arrive. -/
def arrivals (c : Netconn) (es : List Label) : List Netbuf :=
  es.filterMap fun e =>
    match e with
    | .receive conn buf => if conn = c then some buf else none
    | _ => none

/-- `netconn_recv` does not fail, by a timeout or because the connection is closed, while it waits
for the rest of a frame of the connection. -/
def Whole (c : Netconn) (s : Server) (e : Label) : Prop :=
  match e with
  | .fail => (s.readingOf c).join.isNone
  | _ => True

instance (c : Netconn) (s : Server) : DecidablePred (Whole c s)
  | .fail => inferInstanceAs (Decidable ((s.readingOf c).join.isNone = true))
  | .receive .. | .notify | .lost | .eof _ | .turn | .recv | .reject _ | .api _ =>
    inferInstanceAs (Decidable True)

section Step

variable {heap : Heap} {c : Netconn} {fs : List Frame} {future : List Netbuf} {s t : Server}
  {e : Label} {conns : List Netconn}

theorem Serves.step (h : Serves heap c fs (arrivals c [e] ++ future) s (c ∈ conns))
    (hreads : s.Reads) (hknown : s.table.Known conns)
    (hfits : ∀ url, FitsAll heap (wsConnectClient c url) fs)
    (hnew : (conns ++ e.brings.toList).Nodup) (hwhole : Whole c s e)
    (hstep : s.step heap e = some t) :
    Serves heap c fs future t (c ∈ conns ++ e.brings.toList) := by
  have hdistinct : ∀ i j, (s.clients i).conn = some c → (s.clients j).conn = some c → i = j :=
    fun i j hi hj => hknown.distinct i j c hi hj
  have hsilent : e.brings = none → Serves heap c fs future t (c ∈ conns) →
      Serves heap c fs future t (c ∈ conns ++ e.brings.toList) := by
    intro he ht
    rwa [he, Option.toList_none, List.append_nil]
  cases e with
  | receive conn buf =>
    rw [Server.step, Option.ite_none_right_eq_some, Option.some.injEq] at hstep
    obtain ⟨-, rfl⟩ := hstep
    have harrivals : arrivals c [.receive conn buf] = if conn = c then [buf] else [] := by
      by_cases hc : conn = c <;> simp [arrivals, hc]
    rw [harrivals] at h
    exact hsilent rfl (h.receive _)
  | eof conn =>
    rw [Server.step, Option.ite_none_right_eq_some, Option.some.injEq] at hstep
    obtain ⟨-, rfl⟩ := hstep
    exact hsilent rfl (h.same rfl rfl rfl (fun _ hi => hi) fun _ _ => rfl)
  | notify =>
    rw [Server.step] at hstep
    split at hstep
    · rw [Option.ite_none_right_eq_some, Option.some.injEq] at hstep
      obtain ⟨-, rfl⟩ := hstep
      exact hsilent rfl (h.same rfl rfl rfl (fun _ hi => hi) fun _ _ => rfl)
    · cases hstep
  | lost =>
    rw [Server.step, Option.ite_none_right_eq_some, Option.some.injEq] at hstep
    obtain ⟨-, rfl⟩ := hstep
    exact hsilent rfl (h.same rfl rfl rfl (fun _ hi => hi) fun _ _ => rfl)
  | turn =>
    rw [Server.step] at hstep
    split at hstep
    · rename_i conn queue hidle _
      obtain rfl := Option.some.inj hstep
      have hsame : Serves heap c fs future { s with queue := queue } (c ∈ conns) :=
        h.same rfl rfl rfl (fun _ hi => hi) fun _ _ => rfl
      exact hsilent rfl (hsame.turn hidle hdistinct)
    · cases hstep
  | recv =>
    rw [Server.step] at hstep
    split at hstep
    · cases hstep
    · rename_i num conn r hreading
      split at hstep
      · cases hstep
      · rename_i buf bufs hmbox
        obtain ⟨read, hread, hstep⟩ := Option.bind_eq_some_iff.mp hstep
        obtain rfl := Option.some.inj hstep
        exact hsilent rfl (h.recv hreading (hreads num conn r hreading) hdistinct hmbox hread)
  | fail =>
    cases hreading : s.reading with
    | none =>
      rw [Server.step, hreading] at hstep
      cases hstep
    | some reading =>
      obtain ⟨num, conn, r⟩ := reading
      exact hsilent rfl (h.fail hreading (hreads num conn r hreading) hwhole hstep)
  | reject conn =>
    obtain rfl := Option.some.inj hstep
    have hsame : Serves heap c fs future (s.reject conn) (c ∈ conns) :=
      h.same rfl (by simp [Server.reject, Server.put]) rfl (fun _ hi => hi) fun _ _ => rfl
    by_cases hc : conn = c
    · subst hc
      have hnot : conn ∉ conns := fun hmem =>
        (List.nodup_append.mp hnew).2.2 conn hmem conn (by simp [Label.brings]) rfl
      cases hsame with
      | before _ hgone hlog => exact .after (by simp [Label.brings]) hgone ⟨deliveries fs, by simp [hlog]⟩
      | during hbrought => exact absurd hbrought hnot
      | after hbrought => exact absurd hbrought hnot
    · exact hsame.iff (by simp [Label.brings, Ne.symm hc])
  | api a =>
    rw [Server.step, Option.ite_none_right_eq_some, Option.some.injEq] at hstep
    obtain ⟨hidle, rfl⟩ := hstep
    rw [Option.isNone_iff_eq_none] at hidle
    cases ha : a.brings with
    | none =>
      exact hsilent ha (h.acts (Server.api_acts s ha) hidle hdistinct)
    | some conn =>
      obtain ⟨url, handshake, rfl⟩ := Api.eq_add ha
      by_cases hc : conn = c
      · subst hc
        have hnot : conn ∉ conns := fun hmem =>
          (List.nodup_append.mp hnew).2.2 conn hmem conn (by simp [Label.brings, Api.brings]) rfl
        exact (h.add_self hidle hfits url handshake hnot).iff (by simp [Label.brings, Api.brings])
      · exact (h.add_other hc url handshake).iff
          (by simp [Label.brings, Api.brings, Ne.symm hc])

end Step

section Delivered

variable {heap : Heap} {c : Netconn} {fs : List Frame} {pieces : List Netbuf} {t : Server}
  {es : List Label}

theorem arrivals_append (c : Netconn) (es ds : List Label) :
    arrivals c (es ++ ds) = arrivals c es ++ arrivals c ds := List.filterMap_append

theorem FitsAll.url (h : FitsAll heap (wsConnectClient c []) fs) (url : Text) :
    FitsAll heap (wsConnectClient c url) fs := h.congr rfl

theorem Serves.run (run : Run (Guarded (Steps (Server.step heap)) (Whole c)) Server.start es t)
    (hnew : (es.filterMap Label.brings).Nodup) (hfits : FitsAll heap (wsConnectClient c []) fs)
    (hstreams : Streams fs pieces) {future : List Netbuf}
    (harrivals : arrivals c es ++ future = pieces) :
    Serves heap c fs future t (c ∈ es.filterMap Label.brings) := by
  induction run generalizing future with
  | nil =>
    obtain rfl : future = pieces := harrivals
    exact .before List.not_mem_nil (fun _ => (Option.some_ne_none c).symm) rfl hstreams
  | @snoc es a b e run hstep ih =>
    rw [arrivals_append, List.append_assoc] at harrivals
    rw [filterMap_snoc] at hnew ⊢
    have hbefore := (List.nodup_append.mp hnew).1
    have run' := run.mono fun _ _ _ h => h.1
    have hserves := ih hbefore harrivals
    exact hserves.step (Server.run_moves Server.start_reads run').2 (Server.run_known run' hbefore)
      hfits.url hnew hstep.2 hstep.1

/-- Whatever else the server does and whenever the pieces arrive, a client is told of the frames of
its peer and of nothing else, in their order and of each once. -/
theorem delivered_in_order
    (run : Run (Guarded (Steps (Server.step heap)) (Whole c)) Server.start es t)
    (hnew : (es.filterMap Label.brings).Nodup) (hfits : FitsAll heap (wsConnectClient c []) fs)
    (hstreams : Streams fs pieces) (harrivals : arrivals c es <+: pieces) :
    incoming c t.log <+: deliveries fs := by
  obtain ⟨future, hfuture⟩ := harrivals
  cases Serves.run run hnew hfits hstreams hfuture with
  | before _ _ hlog =>
    rw [hlog]
    exact List.nil_prefix
  | during _ _ _ hlog => exact ⟨_, hlog⟩
  | after _ _ hlog => exact hlog

end Delivered

/-! ### A frame in two pieces -/

/-- A masked text of two bytes. -/
def maskedHi : Frame :=
  ⟨true, 0, Opcode.text, some fun i => BitVec.ofNat 8 (i + 1), [0x68, 0x69], by decide⟩

/-- The second piece arrives while the task waits for it. -/
def twoPieces : List Label :=
  [.api (.add 7 [] []), .receive 7 (pieceOf (maskedHi.bytes.take 7)), .notify, .turn, .recv,
    .receive 7 (pieceOf (maskedHi.bytes.drop 7)), .recv, .notify, .turn]

theorem maskedHi_fits : FitsAll heap100 (wsConnectClient 7 []) [maskedHi] :=
  ⟨⟨by decide, by decide⟩, trivial⟩

theorem maskedHi_streams : Streams [maskedHi] (arrivals 7 twoPieces) :=
  have hcarries : maskedHi.Carries
      (pieceOf (maskedHi.bytes.take 7) :: [pieceOf (maskedHi.bytes.drop 7)]) :=
    .pieces (by decide) (by decide) (by decide)
  .cons hcarries .nil

theorem delivered_in_order_twoPieces :
    ∃ t, Run (Guarded (Steps (Server.step heap100)) (Whole 7)) Server.start twoPieces t ∧
      incoming 7 t.log = [.text [0x68, 0x69]] ∧ incoming 7 t.log <+: deliveries [maskedHi] := by
  have hexec : (exec (restrict (Server.step heap100) fun s e => decide (Whole 7 s e)) Server.start
      twoPieces).map (fun t => incoming 7 t.log) = some [.text [0x68, 0x69]] := by decide +kernel
  obtain ⟨t, ht, hlog⟩ := Option.map_eq_some_iff.mp hexec
  have run := Run.of_exec_restrict (G := Whole 7) (fun _ _ => of_decide_eq_true) ht
  exact ⟨t, run, hlog, delivered_in_order run (by decide) maskedHi_fits maskedHi_streams
    List.prefix_rfl⟩

end VhomeBridge.WebSocket
