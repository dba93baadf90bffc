import VhomeBridge.Zigbee.Fota

/-! The send loop of `zigbee_fota_task` carries the stored file: its data packets are the blocks of
the file, numbered from 1, and a receiver that checks number, complement and CRC of each data
packet recovers the file with zeros after it. -/

namespace VhomeBridge.Zigbee

open Lib

/-! ### Numbered data packets -/

/-- The packets are data packets with the given contents, numbered from `no` modulo 256. -/
def Carries : Byte → List (List Byte) → List XmodemPacket → Prop
  | _, [], [] => True
  | no, b :: bs, p :: ps =>
    p.header = soh ∧ p.packetno = no ∧ p.data = b ∧ Carries (no + 1) bs ps
  | _, _, _ => False

theorem number_succ (no : Byte) (k : Nat) :
    no + 1 + BitVec.ofNat 8 k = no + BitVec.ofNat 8 (k + 1) := by
  rw [Nat.add_comm, BitVec.ofNat_add, BitVec.add_assoc]
  rfl

namespace Carries

theorem append {no : Byte} {bs cs : List (List Byte)} {ps qs : List XmodemPacket}
    (h1 : Carries no bs ps) (h2 : Carries (no + BitVec.ofNat 8 ps.length) cs qs) :
    Carries no (bs ++ cs) (ps ++ qs) := by
  induction ps generalizing no bs with
  | nil =>
    cases bs with
    | nil => simpa using h2
    | cons b bs => exact h1.elim
  | cons p ps ih =>
    cases bs with
    | nil => exact h1.elim
    | cons b bs =>
      obtain ⟨hheader, hno, hdata, hrest⟩ := h1
      refine ⟨hheader, hno, hdata, ih hrest ?_⟩
      rwa [List.length_cons, ← number_succ] at h2

theorem data {no : Byte} {bs : List (List Byte)} {ps : List XmodemPacket}
    (h : Carries no bs ps) : ps.map XmodemPacket.data = bs := by
  induction ps generalizing no bs with
  | nil =>
    cases bs with
    | nil => rfl
    | cons b bs => exact h.elim
  | cons p ps ih =>
    cases bs with
    | nil => exact h.elim
    | cons b bs => rw [List.map_cons, h.2.2.1, ih h.2.2.2]

/-- The packet at index `k` is a data packet with number `no + k`. -/
theorem get {no : Byte} {bs : List (List Byte)} {ps : List XmodemPacket} (h : Carries no bs ps)
    {k : Nat} (hk : k < ps.length) :
    ps[k].header = soh ∧ ps[k].packetno = no + BitVec.ofNat 8 k := by
  induction ps generalizing no bs k with
  | nil => simp at hk
  | cons p ps ih =>
    cases bs with
    | nil => exact h.elim
    | cons b bs =>
      cases k with
      | zero => exact ⟨h.1, by simpa using h.2.1⟩
      | succ k =>
        have hget := ih h.2.2.2 (Nat.lt_of_succ_lt_succ hk)
        refine ⟨hget.1, ?_⟩
        rw [List.getElem_cons_succ, hget.2, number_succ]

theorem header {no : Byte} {bs : List (List Byte)} {ps : List XmodemPacket}
    (h : Carries no bs ps) : ∀ p ∈ ps, p.header = soh := by
  intro p hp
  obtain ⟨k, hk, rfl⟩ := List.mem_iff_getElem.mp hp
  exact (h.get hk).1

end Carries

/-! ### The send loop -/

theorem xmodemTransmit_data (packetno : Byte) (ctx : List Byte) (srcsz : Nat) :
    (xmodemTransmit packetno ctx srcsz soh).1.data = ctx.take (min srcsz xmodemSize) := by
  simp only [xmodemTransmit, if_pos]
  split <;> congr 1 <;> omega

theorem sendBlocks_number (packetno : Byte) (buf : List Byte) (dataSend : Nat) :
    (sendBlocks packetno buf dataSend).2 =
      packetno + BitVec.ofNat 8 (sendBlocks packetno buf dataSend).1.length := by
  fun_induction sendBlocks packetno buf dataSend with
  | case1 packetno dataSend h sent next ih =>
    have hsent : sent.2 = packetno + 1 := rfl
    simp only [next] at ih ⊢
    rw [ih, hsent, List.length_cons, number_succ]
  | case2 packetno dataSend h sent => rfl

/-- The inner loop sends the blocks of the rest of the buffer. -/
theorem sendBlocks_carries (packetno : Byte) (buf : List Byte) (dataSend : Nat)
    (h : dataSend < buf.length) :
    Carries packetno (blocks xmodemSize (buf.drop dataSend))
      (sendBlocks packetno buf dataSend).1 := by
  have hsize : 0 < xmodemSize := by decide
  fun_induction sendBlocks packetno buf dataSend with
  | case1 packetno dataSend hlt sent next ih =>
    have hne : buf.drop dataSend ≠ [] := by simpa using h
    have hmore : dataSend + xmodemSize < buf.length := by omega
    rw [blocks_of_ne_nil hsize hne, List.drop_drop]
    refine ⟨rfl, rfl, ?_, ih hmore⟩
    rw [xmodemTransmit_data, Nat.min_self]
  | case2 packetno dataSend hlt sent =>
    have hne : buf.drop dataSend ≠ [] := by simpa using h
    have hlast : (buf.drop dataSend).length ≤ xmodemSize := by
      rw [List.length_drop]
      omega
    rw [blocks_short hne hlast]
    refine ⟨rfl, rfl, ?_, trivial⟩
    show (xmodemTransmit packetno (buf.drop dataSend) (buf.length - dataSend) soh).1.data = _
    rw [xmodemTransmit_data]
    exact List.take_of_length_le (by rw [List.length_drop] at hlast ⊢; omega)

/-- The blocks of a file are those of its first buffer followed by those of the rest. -/
theorem blocks_buffer (file : List Byte) :
    blocks xmodemSize file = blocks xmodemSize (file.take zigbeeOtaBufSize) ++
      blocks xmodemSize (file.drop zigbeeOtaBufSize) := by
  by_cases h : file.length ≤ zigbeeOtaBufSize
  · rw [List.take_of_length_le h, List.drop_of_length_le h, blocks_nil, List.append_nil]
  · have hdvd : xmodemSize ∣ (file.take zigbeeOtaBufSize).length := by
      rw [List.length_take, Nat.min_eq_left (by omega)]
      decide
    conv => lhs; rw [← List.take_append_drop zigbeeOtaBufSize file]
    exact blocks_append (by decide) _ hdvd

/-- The outer loop sends the blocks of a file that is no longer than the countdown. -/
theorem sendFile_carries (packetno : Byte) (imageDataRemaining : Int) (file : List Byte)
    (h : file.length ≤ imageDataRemaining) :
    Carries packetno (blocks xmodemSize file) (sendFile packetno imageDataRemaining file).1 := by
  fun_induction sendFile packetno imageDataRemaining file with
  | case1 packetno file =>
    obtain rfl : file = [] := List.length_eq_zero_iff.mp (by omega)
    rw [blocks_nil]
    trivial
  | case2 packetno imageDataRemaining file hne buf hbuf =>
    have hsize : zigbeeOtaBufSize = 16384 := rfl
    obtain rfl : file = [] := by
      have hlen : (file.take zigbeeOtaBufSize).length = 0 := hbuf
      rw [List.length_take] at hlen
      exact List.length_eq_zero_iff.mp (by omega)
    rw [blocks_nil]
    trivial
  | case3 packetno imageDataRemaining file hne buf hbuf sent next ih =>
    have hcount : (file.drop zigbeeOtaBufSize).length ≤ imageDataRemaining - buf.length := by
      have hlen := congrArg List.length (List.take_append_drop zigbeeOtaBufSize file)
      rw [List.length_append] at hlen
      simp only [buf]
      omega
    rw [blocks_buffer]
    have hfirst := sendBlocks_carries packetno buf 0 (by omega)
    rw [List.drop_zero] at hfirst
    apply hfirst.append
    rw [← sendBlocks_number]
    exact ih hcount

/-- The packets of a file that is no longer than the content length: its blocks, numbered from 1,
and then the `EOT` packet. -/
theorem sendImage_eq (contentLength : Int) (file : List Byte) (h : file.length ≤ contentLength) :
    ∃ ps e, sendImage contentLength file = ps ++ [e] ∧ Carries 1 (blocks xmodemSize file) ps ∧
      e.header = eot :=
  ⟨_, _, rfl, sendFile_carries 1 contentLength file h, rfl⟩

/-- The payloads of the data packets are the file with fewer than 128 zeros after it. -/
theorem Carries.payloads {no : Byte} {file : List Byte} {ps : List XmodemPacket}
    (h : Carries no (blocks xmodemSize file) ps) :
    ∃ pad < xmodemSize, (ps.map XmodemPacket.payload).flatten = file ++ List.replicate pad 0 := by
  obtain ⟨pad, hpad, hflat⟩ := fill_blocks_flatten (m := xmodemSize) (by decide) (0 : Byte) file
  refine ⟨pad, hpad, ?_⟩
  rw [← hflat, ← h.data, List.map_map]
  rfl

/-! ### The receiver -/

/-- The two bytes of a CRC, high byte first. -/
def bigEndian (crc : BitVec 16) : List Byte := [(crc >>> 8).setWidth 8, crc.setWidth 8]

/-- The payload of a data packet that passes the checks of an XMODEM-CRC receiver which expects
the number `no`. -/
def checkPacket (no : Byte) : List Byte → Option (List Byte)
  | header :: number :: complement :: body =>
    let payload := body.take 128
    if header = 0x01 ∧ number = no ∧ complement = ~~~number ∧ payload.length = 128 ∧
        body.drop 128 = bigEndian (crcXmodem payload) then
      some payload
    else none
  | _ => none

/-- An XMODEM-CRC receiver: the payloads of the data packets up to a packet with header `EOT`, or
`none` if a packet before it is not the data packet that is due or no such packet comes. -/
def xmodemReceive : Byte → List (List Byte) → Option (List Byte)
  | _, [] => none
  | no, packet :: packets =>
    if packet.head? = some 0x04 then some []
    else
      (checkPacket no packet).bind fun payload =>
        (xmodemReceive (no + 1) packets).map (payload ++ ·)

theorem XmodemPacket.trailer_eq (payload : List Byte) :
    XmodemPacket.trailer payload = bigEndian (crcXmodem payload) := by
  rw [XmodemPacket.trailer, crc16Ccitt_eq]
  rfl

/-- The bytes of a data packet, with the CRC computed a bit at a time. -/
theorem XmodemPacket.xbuff_eq (p : XmodemPacket) (h : p.header = soh) :
    p.xbuff =
      [0x01, p.packetno, ~~~p.packetno] ++ p.payload ++ bigEndian (crcXmodem p.payload) := by
  rw [XmodemPacket.xbuff, XmodemPacket.trailer_eq, h]
  rfl

theorem checkPacket_xbuff (p : XmodemPacket) (h : p.header = soh) :
    checkPacket p.packetno p.xbuff = some p.payload := by
  have hlen : p.payload.length = 128 := p.length_payload
  rw [p.xbuff_eq h]
  simp [checkPacket, hlen]

theorem xmodemReceive_packets {no : Byte} {bs : List (List Byte)} {ps : List XmodemPacket}
    (h : Carries no bs ps) (e : XmodemPacket) (he : e.header = eot) :
    xmodemReceive no ((ps ++ [e]).map XmodemPacket.xbuff) =
      some (ps.map XmodemPacket.payload).flatten := by
  induction ps generalizing no bs with
  | nil => simp [xmodemReceive, XmodemPacket.xbuff, he, eot]
  | cons p ps ih =>
    cases bs with
    | nil => exact h.elim
    | cons b bs =>
      obtain ⟨hheader, hno, -, hrest⟩ := h
      have hhead : ¬p.xbuff.head? = some 0x04 := by
        rw [p.xbuff_eq hheader]
        simp
      rw [List.cons_append, List.map_cons, xmodemReceive, if_neg hhead, ← hno,
        checkPacket_xbuff p hheader, hno, Option.bind_some, ih hrest]
      simp

/-- An image whose length is the content length is sent as ⌈n/128⌉ data packets with
consecutive numbers from 1, complements and CRC trailers, whose payloads are the image and fewer
than 128 zeros, and then one `EOT` packet; a receiver recovers the image and the zeros. -/
theorem sendImage_transfers (image : List Byte) :
    ∃ ps e, sendImage image.length image = ps ++ [e] ∧ e.xbuff.head? = some 0x04 ∧
      ps.length = (image.length + 127) / 128 ∧
      (∀ k (hk : k < ps.length), ps[k].payload.length = 128 ∧
        ps[k].xbuff = [0x01, BitVec.ofNat 8 (k + 1), ~~~BitVec.ofNat 8 (k + 1)] ++ ps[k].payload ++
          bigEndian (crcXmodem ps[k].payload)) ∧
      ∃ pad < 128, (ps.map XmodemPacket.payload).flatten = image ++ List.replicate pad 0 ∧
        xmodemReceive 1 ((sendImage image.length image).map XmodemPacket.xbuff) =
          some (image ++ List.replicate pad 0) := by
  obtain ⟨ps, e, hsend, hcarries, he⟩ := sendImage_eq image.length image (by omega)
  obtain ⟨pad, hpad, hflat⟩ := hcarries.payloads
  refine ⟨ps, e, hsend, by simp [XmodemPacket.xbuff, he, eot], ?_, fun k hk => ?_, pad, hpad,
    hflat, ?_⟩
  · rw [← List.length_map (f := XmodemPacket.data), hcarries.data, blocks_length (by decide)]
    rfl
  · obtain ⟨hheader, hno⟩ := hcarries.get hk
    have hnumber : ps[k].packetno = BitVec.ofNat 8 (k + 1) := by
      rw [hno, Nat.add_comm, BitVec.ofNat_add]
      rfl
    exact ⟨ps[k].length_payload, by rw [ps[k].xbuff_eq hheader, hnumber]⟩
  · rw [hsend, xmodemReceive_packets hcarries e he, hflat]

end VhomeBridge.Zigbee
