import VhomeBridge.Lib.Run
import VhomeBridge.Zigbee.Transfer

/-! The acknowledgement of packets.  `zigbee_fota_task` waits for the flag `xmodem_ack`, which
`uart_rx_task` sets and clears after each read of a single byte.  The tasks take turns in any order,
and bytes arrive at any time.  A packet may follow the one before it without an acknowledgement
when the flag is raised by a byte that is repeated, late or early; it cannot when each byte that
raises the flag answers the packet that the send loop still waits for. -/

namespace VhomeBridge.Zigbee

open Lib

def ack : Byte := 0x06

def rxBufSize : Nat := 1024

/-- Where `zigbee_fota_task` is: before a packet, in `while(!xmodem_ack)`, before
`xmodem_ack = false`, or past the `EOT` packet. -/
inductive SendPc
  | transmit
  | wait
  | clear
  | done
  deriving DecidableEq

/-- What an observer of the line sees: a packet written, or a byte from the bootloader. -/
inductive Line
  | packet (p : XmodemPacket)
  | byte (b : Byte)

/-- The state of the two tasks.  `fifo` holds the bytes not yet read and `read` those of the read
that `uart_rx_task` is handling, each with the number of packets written before it arrived.  `line`
is the history of the line, the latest entry first. -/
structure Handshake where
  todo : List XmodemPacket
  pc : SendPc
  xmodemAck : Bool
  fifo : List (Byte × Nat)
  read : Option (List (Byte × Nat))
  line : List Line

/-- The moves of the bootloader (`arrive`), of `uart_rx_task` (`read`, `handle`) and of
`zigbee_fota_task` (`transmit`, `test`, `clear`). -/
inductive Move
  | arrive (b : Byte)
  | read (rxBytes : Nat)
  | handle
  | transmit
  | test
  | clear

def packets : List Line → Nat
  | [] => 0
  | .packet _ :: line => packets line + 1
  | .byte _ :: line => packets line

/-- The flag after `uart_rx_task` has handled a read. -/
def setAck (xmodemAck : Bool) : List (Byte × Nat) → Bool
  | [(b, _)] => b == ack
  | _ => xmodemAck

namespace Handshake

def step (s : Handshake) : Move → Option Handshake
  | .arrive b =>
    some { s with fifo := s.fifo ++ [(b, packets s.line)], line := .byte b :: s.line }
  | .read rxBytes =>
    if s.read.isNone ∧ 0 < rxBytes ∧ rxBytes ≤ rxBufSize ∧ rxBytes ≤ s.fifo.length then
      some { s with read := some (s.fifo.take rxBytes), fifo := s.fifo.drop rxBytes }
    else none
  | .handle =>
    s.read.map fun bytes => { s with xmodemAck := setAck s.xmodemAck bytes, read := none }
  | .transmit =>
    match s.pc, s.todo with
    | .transmit, p :: todo =>
      some { s with
        todo := todo, pc := if p.header = eot then .done else .wait, line := .packet p :: s.line }
    | _, _ => none
  | .test =>
    if s.pc = .wait then some { s with pc := if s.xmodemAck then .clear else .wait } else none
  | .clear => if s.pc = .clear then some { s with xmodemAck := false, pc := .transmit } else none

/-- The state in which the send loop is entered. -/
def start (todo : List XmodemPacket) (xmodemAck : Bool) (fifo : List Byte) : Handshake where
  todo := todo
  pc := .transmit
  xmodemAck := xmodemAck
  fifo := fifo.map (·, 0)
  read := none
  line := []

/-- The byte that raises the flag arrived after the latest packet, and the send loop has not yet
cleared the flag for that packet. -/
def timely (s : Handshake) : Move → Bool
  | .handle =>
    match s.read with
    | some [(b, n)] =>
      b != ack || s.pc == .done || (n == packets s.line && (s.pc == .wait || s.pc == .clear))
    | _ => true
  | _ => true

end Handshake

/-- The byte `b` arrived after the latest packet, if there is one. -/
def Since (b : Byte) : List Line → Prop
  | [] => True
  | .packet _ :: _ => False
  | .byte c :: line => c = b ∨ Since b line

/-- Between each packet and the one before it an `ACK` byte arrived. -/
def Acked : List Line → Prop
  | [] => True
  | .packet _ :: line => Since ack line ∧ Acked line
  | .byte _ :: line => Acked line

/-! ### Timely acknowledgements -/

namespace Handshake

/-- What each place of the send loop says about the flag. -/
def FlagFits (s : Handshake) : SendPc → Prop
  | .transmit => s.xmodemAck = false ∧ Since ack s.line
  | .wait => s.xmodemAck = true → Since ack s.line
  | .clear => Since ack s.line
  | .done => True

/-- The bytes in flight carry honest counts, the flag fits the place of the send loop, and the
packets so far are acknowledged. -/
structure Inv (s : Handshake) : Prop where
  acked : Acked s.line
  counts : ∀ x ∈ s.fifo ++ s.read.getD [],
    x.2 ≤ packets s.line ∧ (x.2 = packets s.line → Since x.1 s.line)
  flag : s.FlagFits s.pc

theorem start_inv (todo : List XmodemPacket) (fifo : List Byte) :
    Inv (start todo false fifo) where
  acked := trivial
  counts := by
    intro x hx
    obtain ⟨b, -, rfl⟩ : ∃ b ∈ fifo, (b, 0) = x := by simpa [start] using hx
    exact ⟨Nat.le_refl _, fun _ => trivial⟩
  flag := ⟨rfl, trivial⟩

theorem FlagFits.arrive {s : Handshake} {b : Byte} {fifo : List (Byte × Nat)} {pc : SendPc}
    (h : s.FlagFits pc) : FlagFits { s with fifo := fifo, line := .byte b :: s.line } pc := by
  cases pc with
  | transmit => exact ⟨h.1, .inr h.2⟩
  | wait => exact fun hack => .inr (h hack)
  | clear => exact .inr h
  | done => trivial

/-- Handling a read keeps the flag fitting when the read is timely. -/
theorem FlagFits.handle {s : Handshake} {bytes : List (Byte × Nat)} (h : s.FlagFits s.pc)
    (hread : s.read = some bytes)
    (counts : ∀ x ∈ bytes, x.2 = packets s.line → Since x.1 s.line)
    (htimely : s.timely .handle = true) :
    FlagFits { s with xmodemAck := setAck s.xmodemAck bytes, read := none } s.pc := by
  match bytes with
  | [] | _ :: _ :: _ => exact h
  | [(b, n)] =>
    simp only [timely, hread] at htimely
    cases hpc : s.pc with
    | done => trivial
    | clear =>
      rw [hpc] at h
      exact h
    | transmit =>
      rw [hpc] at h htimely
      have hne : b ≠ ack := by simpa using htimely
      exact ⟨by simpa [setAck] using hne, h.2⟩
    | wait =>
      intro hack
      obtain rfl : b = ack := by simpa [setAck] using hack
      rw [hpc] at htimely
      have hn : n = packets s.line := by simpa using htimely
      exact counts (ack, n) (by simp) hn

theorem Inv.arrive {s : Handshake} (h : Inv s) (b : Byte) :
    Inv { s with fifo := s.fifo ++ [(b, packets s.line)], line := .byte b :: s.line } := by
  refine ⟨h.acked, fun x hx => ?_, h.flag.arrive⟩
  have hx' : x ∈ s.fifo ++ s.read.getD [] ∨ x = (b, packets s.line) := by
    simp only [List.mem_append, List.mem_singleton] at hx ⊢
    tauto
  rcases hx' with hx' | rfl
  · exact ⟨(h.counts x hx').1, fun heq => .inr ((h.counts x hx').2 heq)⟩
  · exact ⟨Nat.le_refl _, fun _ => .inl rfl⟩

/-- A packet is written with the flag down, after the acknowledgement of the one before it. -/
theorem Inv.transmit {s : Handshake} (h : Inv s) (hpc : s.pc = .transmit) (p : XmodemPacket)
    (todo : List XmodemPacket) :
    Inv { s with
      todo := todo
      pc := if p.header = eot then .done else .wait
      line := .packet p :: s.line } := by
  have hflag := h.flag
  rw [hpc] at hflag
  refine ⟨⟨hflag.2, h.acked⟩, fun x hx => ?_, ?_⟩
  · have hle := (h.counts x hx).1
    refine ⟨Nat.le_succ_of_le hle, fun heq => ?_⟩
    have hsucc : x.2 = packets s.line + 1 := heq
    omega
  · show FlagFits _ (if p.header = eot then SendPc.done else SendPc.wait)
    split
    · trivial
    · intro hack
      rw [hflag.1] at hack
      contradiction

theorem step_inv {s t : Handshake} {m : Move} (h : Inv s) (hstep : s.step m = some t)
    (htimely : s.timely m = true) : Inv t := by
  cases m with
  | arrive b =>
    obtain rfl : _ = t := by simpa [step] using hstep
    exact h.arrive b
  | read rxBytes =>
    simp only [step] at hstep
    split at hstep
    · rename_i hguard
      obtain rfl := Option.some.inj hstep
      refine ⟨h.acked, fun x hx => h.counts x ?_, h.flag⟩
      have hmem : x ∈ s.fifo := by
        rcases List.mem_append.mp hx with hx | hx
        · exact List.mem_of_mem_drop hx
        · exact List.mem_of_mem_take hx
      exact List.mem_append_left _ hmem
    · contradiction
  | handle =>
    obtain ⟨bytes, hread, rfl⟩ := Option.map_eq_some_iff.mp hstep
    have hcounts : ∀ x ∈ bytes, x ∈ s.fifo ++ s.read.getD [] := fun x hx => by
      rw [hread]
      exact List.mem_append_right _ hx
    refine ⟨h.acked, fun x hx => h.counts x ?_, ?_⟩
    · exact List.mem_append_left _ (by simpa using hx)
    · exact h.flag.handle hread (fun x hx => (h.counts x (hcounts x hx)).2) htimely
  | transmit =>
    simp only [step] at hstep
    split at hstep
    · rename_i p todo hpc htodo
      obtain rfl := Option.some.inj hstep
      exact h.transmit hpc p todo
    · contradiction
  | test =>
    simp only [step] at hstep
    split at hstep
    · rename_i hpc
      obtain rfl := Option.some.inj hstep
      refine ⟨h.acked, h.counts, ?_⟩
      have hflag := h.flag
      rw [hpc] at hflag
      show FlagFits _ (if s.xmodemAck then SendPc.clear else SendPc.wait)
      split
      · rename_i hack
        exact hflag hack
      · exact hflag
    · contradiction
  | clear =>
    simp only [step] at hstep
    split at hstep
    · rename_i hpc
      obtain rfl := Option.some.inj hstep
      have hflag := h.flag
      rw [hpc] at hflag
      exact ⟨h.acked, h.counts, rfl, hflag⟩
    · contradiction

/-- If the flag is down when the send loop is entered and only timely bytes raise it, each packet is
written after an `ACK` byte that arrived after the packet before it. -/
theorem acked_of_timely (todo : List XmodemPacket) (fifo : List Byte) (ms : List Move)
    (t : Handshake)
    (run : Run (Guarded (Steps step) fun s m => s.timely m = true) (start todo false fifo) ms t) :
    Acked t.line :=
  (run.invariant (I := Inv) (start_inv todo fifo)
    fun _ _ _ hinv hstep => step_inv hinv hstep.1 hstep.2).acked

/-- One data packet, its acknowledgement, and the `EOT` packet. -/
theorem acked_of_timely_one :
    Acked ((exec (restrict step timely)
      (start [(xmodemTransmit 1 [0x41] 1 soh).1, (xmodemTransmit 2 [] 0 eot).1] false [])
      [.transmit, .arrive ack, .read 1, .handle, .test, .clear, .transmit]).get rfl).line :=
  acked_of_timely _ _ _ _ (Run.of_exec_restrict (fun _ _ h => h) (Option.some_get _).symm)

/-- The bootloader repeats the acknowledgement of the first packet. -/
def repeatedAck : List Move :=
  [.transmit, .arrive ack, .arrive ack, .read 1, .handle, .test, .clear, .read 1, .handle,
    .transmit, .test, .clear, .transmit]

/-- After a repeated acknowledgement the `EOT` packet of a 129-byte image follows the second data
packet although nothing arrived in between. -/
theorem repeatedAck_not_acked :
    ¬∀ (file : List Byte) (xmodemAck : Bool) (fifo : List Byte) (ms : List Move) (t : Handshake),
      Run (Steps step) (start (sendImage file.length file) xmodemAck fifo) ms t →
        Acked t.line := by
  intro hall
  have hall := hall (List.replicate 129 0x41) false [] repeatedAck
  obtain ⟨ps, e, hsend, hcarries, he⟩ := sendImage_eq 129 (List.replicate 129 0x41) (by simp)
  have hlen : ps.length = 2 := by
    rw [← List.length_map (f := XmodemPacket.data), hcarries.data, blocks_length (by decide)]
    simp [xmodemSize]
  obtain ⟨p1, p2, rfl⟩ := List.length_eq_two.mp hlen
  have h1 : ¬p1.header = eot := by
    rw [hcarries.header p1 (by simp)]
    decide
  have h2 : ¬p2.header = eot := by
    rw [hcarries.header p2 (by simp)]
    decide
  rw [List.length_replicate, Nat.cast_ofNat, hsend] at hall
  have hacked := hall _ (Run.of_exec (t := {
    todo := [], pc := .done, xmodemAck := false, fifo := [], read := none,
    line := [.packet e, .packet p2, .byte ack, .byte ack, .packet p1] }) (by
      simp [exec, step, start, repeatedAck, h1, h2, he, rxBufSize, packets, setAck]))
  exact hacked.1

end Handshake

end VhomeBridge.Zigbee
