import VhomeBridge.Lib.Blocks
import VhomeBridge.Zigbee.Crc

/-! The firmware update of the Zigbee chip, `zigbee_fota_task` of `fota.c`: a download loop that
copies the image from an HTTP server to a file, and a send loop that writes the file to the chip's
bootloader as XMODEM packets.  What the server, the file system and the bootloader do is given by
an environment. -/

namespace VhomeBridge.Zigbee

open Lib

/-! ### Packets -/

def xmodemSize : Nat := 128

def zigbeeOtaBufSize : Nat := 16384

def soh : Byte := 0x01

def eot : Byte := 0x04

/-- What `XmodemTransmit` sends: the header, the packet's number, and the bytes it copies from the
caller's buffer, which fit the payload. -/
structure XmodemPacket where
  header : Byte
  packetno : Byte
  data : List Byte
  fits : data.length ≤ xmodemSize

namespace XmodemPacket

def payload (p : XmodemPacket) : List Byte := fill xmodemSize 0 p.data

/-- The CRC trailer, high byte first. -/
def trailer (payload : List Byte) : List Byte :=
  let ccrc := crc16Ccitt payload
  [(ccrc >>> 8).setWidth 8, ccrc.setWidth 8]

/-- The `XBUF_SIZE` bytes given to `uart_write_bytes`. -/
def xbuff (p : XmodemPacket) : List Byte :=
  [p.header, p.packetno, ~~~p.packetno] ++ p.payload ++ trailer p.payload

theorem length_payload (p : XmodemPacket) : p.payload.length = xmodemSize :=
  length_fill p.fits

end XmodemPacket

/-- `XmodemTransmit` for `srcsz ≥ 0`: the packet written and the next value of the static
`packetno`.  Only a packet with header `SOH` copies bytes from `ctx`. -/
def xmodemTransmit (packetno : Byte) (ctx : List Byte) (srcsz : Nat) (header : Byte) :
    XmodemPacket × Byte :=
  let c := if srcsz > xmodemSize then xmodemSize else srcsz
  have fits : (if header = soh then ctx.take c else []).length ≤ xmodemSize := by
    have hc : c ≤ xmodemSize := by simp only [c]; split <;> omega
    split
    · exact Nat.le_trans (List.length_take_le ..) hc
    · exact Nat.zero_le _
  (⟨header, packetno, if header = soh then ctx.take c else [], fits⟩, packetno + 1)

/-! ### The send loop -/

/-- The inner loop: the blocks of one buffer from index `dataSend` on. -/
def sendBlocks (packetno : Byte) (buf : List Byte) (dataSend : Nat) : List XmodemPacket × Byte :=
  if (dataSend : Int) < buf.length - xmodemSize then
    let sent := xmodemTransmit packetno (buf.drop dataSend) xmodemSize soh
    let next := sendBlocks sent.2 buf (dataSend + xmodemSize)
    (sent.1 :: next.1, next.2)
  else
    let sent := xmodemTransmit packetno (buf.drop dataSend) (buf.length - dataSend) 0x01
    ([sent.1], sent.2)
termination_by buf.length - dataSend
decreasing_by
  have hsize : xmodemSize = 128 := rfl
  omega

/-- The outer loop: `fread` fills the buffer from what is left of the file until the countdown
reaches 0 or the file ends. -/
def sendFile (packetno : Byte) (imageDataRemaining : Int) (file : List Byte) :
    List XmodemPacket × Byte :=
  if imageDataRemaining = 0 then ([], packetno)
  else
    let buf := file.take zigbeeOtaBufSize
    if _h : buf.length = 0 then ([], packetno)
    else
      let sent := sendBlocks packetno buf 0
      let next := sendFile sent.2 (imageDataRemaining - buf.length) (file.drop zigbeeOtaBufSize)
      (sent.1 ++ next.1, next.2)
termination_by file.length
decreasing_by
  have hne : file.length ≠ 0 := fun h0 => _h (by simp [buf, h0])
  have hsize : zigbeeOtaBufSize = 16384 := rfl
  rw [List.length_drop]
  omega

/-- The packets of the send loop and the `EOT` packet after it, if each block is acknowledged. -/
def sendImage (contentLength : Int) (file : List Byte) : List XmodemPacket :=
  let sent := sendFile 1 contentLength file
  sent.1 ++ [(xmodemTransmit sent.2 file 0 eot).1]

/-! ### The download loop -/

/-- A result of `esp_http_client_read`: bytes, 0 with `errno` a lost connection or not, or an
error. -/
inductive HttpRead
  | data (first : Byte) (rest : List Byte)
  | zero (connectionLost : Bool)
  | error

/-- A turn of the download loop: the result of `esp_http_client_read`, and the number of bytes that
`fwrite` takes when it is called. -/
structure Turn where
  read : HttpRead
  fwrite : Nat

/-- How the download loop ends: with a jump to `END`, with the countdown at 0, or not within the
given turns. -/
inductive Download
  | failed
  | complete (file : List Byte)
  | running

def dataMaxLen (imageDataRemaining : Nat) : Nat :=
  if imageDataRemaining < zigbeeOtaBufSize then imageDataRemaining else zigbeeOtaBufSize

/-- The `while` loop of the download, with `file` written so far.  `esp_http_client_read` returns
at most the `data_max_len` bytes it is asked for, and the result of `fwrite` is not looked at. -/
def download (imageDataRemaining : Nat) (file : List Byte) (turns : List Turn) : Download :=
  if imageDataRemaining = 0 then .complete file
  else
    match turns with
    | [] => .running
    | turn :: turns =>
      match turn.read with
      | .zero connectionLost =>
        if connectionLost then .failed else download imageDataRemaining file turns
      | .error => .failed
      | .data first rest =>
        let buf := (first :: rest).take (dataMaxLen imageDataRemaining)
        download (imageDataRemaining - buf.length) (file ++ buf.take turn.fwrite) turns

/-- What surrounds the task: the results of `esp_http_client_init`, `esp_http_client_open`,
`esp_http_client_fetch_headers` and the two calls of `fopen`, and the turns of the download. -/
structure FotaEnv where
  httpInit : Bool
  httpOpen : Bool
  contentLength : Int
  fopenWrite : Bool
  turns : List Turn
  fopenRead : Bool

/-- The packets that `zigbee_fota_task` writes to the bootloader if every wait for `xmodem_ack`
ends. -/
def zigbeeFotaTask (env : FotaEnv) : List XmodemPacket :=
  if env.httpInit = false then []
  else if env.httpOpen = false then []
  else if env.contentLength ≤ 0 then []
  else if env.fopenWrite = false then []
  else
    match download env.contentLength.toNat [] env.turns with
    | .failed => []
    | .running => []
    | .complete file =>
      if env.fopenRead = false then [] else sendImage env.contentLength file

/-- The packets written when only `acks` of the waits end: a wait follows every packet but the
last. -/
def zigbeeFotaWrites (env : FotaEnv) (acks : Nat) : List XmodemPacket :=
  (zigbeeFotaTask env).take (acks + 1)

end VhomeBridge.Zigbee
