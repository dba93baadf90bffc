import VhomeBridge.WebSocket.Read

/-! Where `ws_read` writes.  The length that a frame announces has 64 bits, and the block for it is
allocated with 32: the length decides whether a peer can make `ws_read` write behind the block. -/

namespace VhomeBridge.WebSocket

open Lib

/-- A frame of which part has been read, with a block that is large enough for all of it. -/
structure Reading.Roomy (r : Reading) : Prop where
  size : r.size = r.header.length.toNat + 1
  small : r.size < 2 ^ 32
  contPos : r.contPos = r.contLen
  fin : r.header.param.fin = true

section Inside

variable {heap : Heap} {client : WsClient} {r : Reading}

theorem wsReadEnd_inside (h : r.Roomy) :
    ∃ client' msg, wsReadEnd heap client r = some (.returns client' msg) := by
  have hsmall := h.small
  have hsize := h.size
  have hlen : sizeT r.header.length = r.header.length.toNat := sizeT_of_lt (by omega)
  have hstore : ∀ m : Tape Byte, m.store r.size r.header.length.toNat [0] =
      some (m.write r.header.length.toNat [0]) := fun m =>
    Tape.store_of_le (by rw [hsize, List.length_singleton])
  have hunmask : ∀ m : Tape Byte,
      (unmask r.size m r.header.length.toNat r.header.key).isSome := by
    intro m
    cases r.header.key with
    | none => rfl
    | some key =>
      rw [unmask, Tape.store_of_le]
      · rfl
      · rw [mask, List.length_mapIdx, Tape.length_read]
        omega
  obtain ⟨ret, hret⟩ := Option.isSome_iff_exists.mp
    (hunmask (r.ret.write r.header.length.toNat [0]))
  refine ⟨{ client with lastOpcode := r.header.param.opcode },
    some (r.header, ret.read 0 r.header.length.toNat), ?_⟩
  simp only [wsReadEnd, hlen, hstore, hret, Bind.bind, Option.bind_some, h.fin, if_true]
  rfl

/-- The loop of `ws_read` stays inside of the block, whatever arrives. -/
theorem wsReadPieces_inside (h : r.Roomy) (bufs : List Netbuf) :
    ((wsReadLoop heap client r).bind (wsReadPieces heap · bufs)).isSome := by
  induction bufs generalizing client r with
  | nil =>
    rw [wsReadLoop]
    split
    · rfl
    · obtain ⟨client', msg, hend⟩ : ∃ client' msg,
        wsReadEnd heap client r = some (.returns client' msg) := wsReadEnd_inside h
      rw [hend]
      rfl
  | cons buf bufs ih =>
    rw [wsReadLoop]
    split
    · rename_i hlt
      rw [Option.bind_some, wsReadPieces, wsReadMore]
      split
      · simp [wsReadPieces_returns]
      · rename_i hle
        have hsmall := h.small
        have hsize := h.size
        rw [BitVec.lt_def] at hlt
        have hadd : (r.contLen + buf.len.setWidth 64).toNat =
            r.contLen.toNat + buf.len.toNat := by
          rw [BitVec.toNat_add, BitVec.toNat_setWidth]
          omega
        have hfits : r.contLen.toNat + buf.len.toNat ≤ r.header.length.toNat := by
          rw [BitVec.lt_def, hadd] at hle
          omega
        have hpos : sizeT r.contPos = r.contLen.toNat := by
          rw [h.contPos, sizeT_of_lt (by omega)]
        have hstore : r.ret.store r.size r.contLen.toNat buf.bytes = some _ :=
          Tape.store_of_le (by rw [Netbuf.length_bytes]; omega)
        rw [hpos, hstore]
        exact ih ⟨hsize, hsmall, by rw [h.contPos], h.fin⟩
    · obtain ⟨client', msg, hend⟩ : ∃ client' msg,
        wsReadEnd heap client r = some (.returns client' msg) := wsReadEnd_inside h
      rw [hend, Option.bind_some, wsReadPieces_returns]
      rfl

end Inside

/-- A frame of which part has been read, with a block that is smaller than the frame by `2 ^ 32` or
more. -/
structure Reading.Cramped (r : Reading) : Prop where
  size : r.size + 2 ^ 32 ≤ r.header.length.toNat + 1
  small : r.size < 2 ^ 32
  contPos : r.contPos = r.contLen
  contLen : r.contLen.toNat ≤ max r.size 65535

section Outside

variable {r : Reading}

/-- Large pieces fill the block, and then the next is written behind it. -/
theorem wsReadPieces_outside (heap : Heap) (client : WsClient) (h : r.Cramped) :
    ∃ bufs, (wsReadLoop heap client r).bind (wsReadPieces heap · bufs) = none := by
  -- a piece as large as there is
  obtain ⟨buf, hbuf⟩ : ∃ buf : Netbuf, buf.len.toNat = 65535 := ⟨⟨fun _ => 0, 65535⟩, rfl⟩
  induction hn : r.size - r.contLen.toNat using Nat.strong_induction_on generalizing r client with
  | _ n ih =>
    have hsize := h.size
    have hsmall := h.small
    have hcont := h.contLen
    have hwaits : wsReadLoop heap client r = some (.waits client r) :=
      if_pos (by rw [BitVec.lt_def]; omega)
    have hadd : (r.contLen + buf.len.setWidth 64).toNat = r.contLen.toNat + 65535 := by
      rw [BitVec.toNat_add, BitVec.toNat_setWidth, hbuf]
      omega
    have hnot : ¬r.header.length < r.contLen + buf.len.setWidth 64 := by
      rw [BitVec.lt_def, hadd]
      omega
    have hpos : sizeT r.contPos = r.contLen.toNat := by
      rw [h.contPos, sizeT_of_lt (by omega)]
    have hbytes : buf.bytes.length = 65535 := buf.length_bytes.trans hbuf
    have hmore : wsReadMore heap client r (some buf) =
        (r.ret.store r.size r.contLen.toNat buf.bytes).bind fun ret =>
          wsReadLoop heap { client with unfinished := client.unfinished + 1 }
            { r with
              ret := ret
              contLen := r.contLen + buf.len.setWidth 64
              contPos := r.contPos + buf.len.setWidth 64 } := by
      rw [← hpos]
      exact if_neg hnot
    by_cases hfull : r.size < r.contLen.toNat + 65535
    · have hstore : r.ret.store r.size r.contLen.toNat buf.bytes = none :=
        Tape.store_of_lt (by rw [hbytes]; exact hfull)
      rw [hstore, Option.bind_none] at hmore
      refine ⟨[buf], ?_⟩
      rw [hwaits, Option.bind_some, wsReadPieces, hmore]
      rfl
    · have hstore : r.ret.store r.size r.contLen.toNat buf.bytes = some _ :=
        Tape.store_of_le (by rw [hbytes]; omega)
      rw [hstore, Option.bind_some] at hmore
      have hless : r.size - (r.contLen + buf.len.setWidth 64).toNat < n := by
        rw [← hn, hadd]
        omega
      have hfits : (r.contLen + buf.len.setWidth 64).toNat ≤ max r.size 65535 := by
        rw [hadd]
        omega
      have hnext : Reading.Cramped { r with
          ret := r.ret.write r.contLen.toNat buf.bytes
          contLen := r.contLen + buf.len.setWidth 64
          contPos := r.contPos + buf.len.setWidth 64 } :=
        ⟨hsize, hsmall, congrArg (· + buf.len.setWidth 64) h.contPos, hfits⟩
      obtain ⟨bufs, hbufs⟩ := ih _ hless { client with unfinished := client.unfinished + 1 } hnext rfl
      refine ⟨buf :: bufs, ?_⟩
      rw [hwaits, Option.bind_some, wsReadPieces, hmore]
      exact hbufs

end Outside

theorem sizeT_succ {heap : Heap} {n : BitVec 64} (h : heap.gives (sizeT (n + 1)) = true) :
    sizeT (n + 1) = sizeT n + 1 := by
  rw [Heap.gives, Bool.and_eq_true, decide_eq_true_eq] at h
  have hone : (1 : BitVec 64).toNat = 1 := rfl
  have hpos := h.1
  rw [sizeT, BitVec.toNat_setWidth, BitVec.toNat_add, hone] at hpos ⊢
  rw [sizeT, BitVec.toNat_setWidth]
  omega

/-- Whatever a peer sends in a final frame, `ws_read` writes inside of the block, exactly if the frame
announces less than `2 ^ 32 - 1` bytes, or `malloc` gives no block for it. -/
theorem reads_inside_iff {heap : Heap} {client : WsClient} {buf : Netbuf}
    (hunfinished : client.unfinished = 0) (hfin : (readHeader buf.data).1.param.fin = true)
    (hhead : (readHeader buf.data).2 ≤ buf.len.toNat) :
    (∀ bufs, (wsRead heap client (buf :: bufs)).isSome) ↔
      (readHeader buf.data).1.length.toNat + 1 < 2 ^ 32 ∨
        heap.gives (sizeT ((readHeader buf.data).1.length + 1)) = false := by
  generalize hread : readHeader buf.data = start at *
  obtain ⟨header, pos⟩ := start
  dsimp only at hfin hhead ⊢
  have hwsRead : ∀ bufs, wsRead heap client (buf :: bufs) =
      (wsReadFirst heap client buf).bind (wsReadPieces heap · bufs) :=
    fun bufs => if_neg (not_not.mpr hunfinished)
  simp only [hwsRead]
  cases hgives : heap.gives (sizeT (header.length + 1)) with
  | false =>
    have hfirst : wsReadFirst heap client buf = some (.returns client none) := by
      simp only [wsReadFirst, hread, hgives]
      rfl
    rw [hfirst]
    exact iff_of_true (fun bufs => by rw [Option.bind_some, wsReadPieces_returns]; rfl) (.inr rfl)
  | true =>
    have hsize := sizeT_succ hgives
    have hstore : heap.fresh.store (sizeT (header.length + 1)) 0
        (buf.data.read pos (sizeT header.length)) = some _ :=
      Tape.store_of_le (by rw [Tape.length_read]; omega)
    obtain ⟨ret, hret⟩ := Option.isSome_iff_exists.mp (Option.isSome_of_eq_some hstore)
    have hfirst : wsReadFirst heap client buf = wsReadLoop heap client
        ⟨header, ret, sizeT (header.length + 1), buf.len.setWidth 64 - BitVec.ofNat 64 pos,
          buf.len.setWidth 64 - BitVec.ofNat 64 pos⟩ := by
      simp only [wsReadFirst, hread, hgives, hret, Bind.bind, Option.bind_some]
      rfl
    rw [hfirst]
    by_cases hlen : header.length.toNat + 1 < 2 ^ 32
    · have hlow : sizeT header.length = header.length.toNat := sizeT_of_lt (by omega)
      rw [hlow] at hsize
      have hsmall : sizeT (header.length + 1) < 2 ^ 32 := by omega
      exact iff_of_true (wsReadPieces_inside ⟨hsize, hsmall, rfl, hfin⟩) (.inl hlen)
    · have hcont : (buf.len.setWidth 64 - BitVec.ofNat 64 pos).toNat ≤ 65535 := by
        rw [BitVec.toNat_sub, BitVec.toNat_setWidth, BitVec.toNat_ofNat]
        omega
      have hsmall : sizeT (header.length + 1) < 2 ^ 32 := BitVec.isLt _
      have hlarge : sizeT (header.length + 1) + 2 ^ 32 ≤ header.length.toNat + 1 := by
        have hlow : sizeT header.length = header.length.toNat % 2 ^ 32 := BitVec.toNat_setWidth ..
        omega
      have hcramped : Reading.Cramped ⟨header, ret, sizeT (header.length + 1),
          buf.len.setWidth 64 - BitVec.ofNat 64 pos, buf.len.setWidth 64 - BitVec.ofNat 64 pos⟩ :=
        ⟨hlarge, hsmall, rfl, le_max_of_le_right hcont⟩
      obtain ⟨bufs, hbufs⟩ := wsReadPieces_outside heap client hcramped
      refine iff_of_false (fun hall => ?_) ?_
      · have hsome := hall bufs
        rw [hbufs] at hsome
        cases hsome
      · rintro (hlt | hnone)
        · exact hlen hlt
        · cases hnone

/-- A frame that announces `2 ^ 32 + 5` bytes. -/
def announcesMore : Netbuf := pieceOf [0x81, 127, 0, 0, 0, 1, 0, 0, 0, 5, 0x61]

theorem announcesMore_outside :
    ¬∀ bufs, (wsRead heap100 newClient (announcesMore :: bufs)).isSome := by
  rw [reads_inside_iff rfl (by decide) (by decide)]
  decide

end VhomeBridge.WebSocket
