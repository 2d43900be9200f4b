import PicoUros.Lib.Machine
import PicoUros.Net.Chip

/-!
# The UDP read of the micro-ROS transport

`wiz_uros_udp_read` polls the receive buffer until its timeout and calls `recvfrom` when the buffer
is not empty (`wiz_udp_transport.c`, lines 53–100). On the W6100 this is `recvfrom_IO_6` with
`IPV6_AVAILABLE` defined (`socket.c`, lines 911–1173). It waits for data unless a part of the last
datagram remains, reads the info word, the address, the port and the payload, and keeps in
`sock_remained_size` how much of the payload the caller had no room for. The transport opens its
socket in the mode `Sn_MR_UDP4`, so the tests of the mode pass and the branches for other modes are
left out.

A step of the driver goes up to its next access to the receive buffer, the socket status or the
clock. Between two steps datagrams arrive, the clock advances and the status of the socket changes.

## Main definitions

* `State`, `Pc`: the driver, the chip and a record of the run.
* `Act`, `step`: the steps of the driver and of its surroundings.
-/

namespace PicoUros.Net

/-! ### The driver -/

/-- A call of `wiz_uros_udp_read` with timeout `0`, or until the time `tEnd`. -/
structure Call where
  len : ℕ
  tEnd : Option ℕ

/-- `(uint16_t)len`. -/
def Call.len16 (c : Call) : ℕ := c.len % 65536

/-- Where `wiz_uros_udp_read` is: at the test of the clock, at the test of `Sn_RX_RSR`, in the
waiting loop of `recvfrom`, in front of its reads of the info word, the address, the port and the
payload, or in `sleep_ms`. -/
inductive Pc where
  | idle
  | clock (c : Call)
  | poll (c : Call)
  | wait (c : Call)
  | head (c : Call)
  | addr (c : Call) (packLen : ℕ)
  | port (c : Call) (packLen : ℕ)
  | data (c : Call)
  | sleep (c : Call) (wakeAt : ℕ)

/-- An info word that was read: its position in the stream of all bytes stored by the chip, and the
`len` of the call of `recvfrom`. -/
structure Header where
  pos : ℕ
  len : ℕ

/-- What a call of `wiz_uros_udp_read` returned: the bytes in `buf`, their position in the stream of
all bytes stored by the chip, and `*err`. -/
structure Return where
  len : ℕ
  pos : ℕ
  bytes : List UInt8
  err : UInt8

structure State where
  chip : Chip := {}
  /-- `g_sock` is the number of a socket. -/
  opened : Bool := true
  /-- `sock_remained_size`. -/
  remained : ℕ := 0
  /-- `sock_pack_info`. -/
  packInfo : UInt8
  /-- The bit of the socket in `sock_io_mode`: it does not block. -/
  ioMode : Bool := false
  /-- The clock, in microseconds. -/
  now : ℕ := 0
  pc : Pc := .idle
  rport : UInt16 := 0
  /-- The datagrams that the chip has stored. -/
  accepted : List Datagram := []
  headers : List Header := []
  /-- What was stored to `rip`. -/
  addresses : List (List UInt8) := []
  returns : List Return := []

/-- `PACK_COMPLETED`. -/
def packCompleted : UInt8 := 0x08

/-- `PACK_REMAINED`. -/
def packRemained : UInt8 := 0x04

/-- `PACK_FIRST`. -/
def packFirst : UInt8 := 0x02

/-- `PACK_NONE`. -/
def packNone : UInt8 := 0x00

/-- `SOCK_BUSY`. -/
def sockBusy : ℤ := 0

/-- `SOCKERR_SOCKCLOSED`. -/
def sockerrSockclosed : ℤ := -4

/-- `SOCKERR_DATALEN`. -/
def sockerrDatalen : ℤ := -14

/-- The transport after `wiz_uros_udp_open`. -/
def State.start : State := { packInfo := packCompleted }

namespace State

variable (s : State)

/-- The position of the next byte to read. -/
def pos : ℕ := (s.accepted.flatMap Datagram.bytes).length - s.chip.rx.length

/-- `wiz_uros_udp_read` returns. -/
def udpReturn (c : Call) (pos : ℕ) (bytes : List UInt8) (err : UInt8) : State :=
  { s with pc := .idle, returns := s.returns ++ [⟨c.len, pos, bytes, err⟩] }

/-- `recvfrom` returns `r`, after it has stored `bytes` to `buf`. -/
def recvfromReturn (c : Call) (pos : ℕ) (r : ℤ) (bytes : List UInt8) : State :=
  if r > 0 then s.udpReturn c pos bytes 0
  else
    match c.tEnd with
    | none => s.udpReturn c pos [] 0
    | some _ => { s with pc := .sleep c (s.now + 1000) }

/-- `wiz_uros_udp_read` up to its loop, or to the test of `Sn_RX_RSR`. -/
def udpRead (len : ℕ) (timeout : ℤ) : State :=
  if !s.opened then s.udpReturn ⟨len, none⟩ s.pos [] 1
  else
    let toMs := if timeout < 0 then 10 else timeout.toNat
    if toMs = 0 then { s with pc := .poll ⟨len, none⟩ }
    else { s with pc := .clock ⟨len, some (s.now + toMs * 1000)⟩ }

/-- The condition of the loop. -/
def clock (c : Call) : State :=
  if c.tEnd.all (s.now < ·) then { s with pc := .poll c } else s.udpReturn c s.pos [] 0

/-- The test of `Sn_RX_RSR`, and the tests at the beginning of `recvfrom`. -/
def poll (c : Call) : State :=
  if s.chip.rsr = 0 then
    match c.tEnd with
    | none => s.udpReturn c s.pos [] 0
    | some _ => { s with pc := .sleep c (s.now + 1000) }
  else if c.len16 = 0 then s.recvfromReturn c s.pos sockerrDatalen []
  else if s.remained = 0 then { s with pc := .wait c }
  else { s with pc := .head c }

/-- One pass of the waiting loop. -/
def wait (c : Call) : State :=
  if s.chip.sr = sockClosed then s.recvfromReturn c s.pos sockerrSockclosed []
  else if s.chip.rsr ≠ 0 then { s with packInfo := packNone, pc := .head c }
  else if s.ioMode then s.recvfromReturn c s.pos sockBusy []
  else s

/-- The info word is read. -/
def head (memory : ℕ → UInt8) (c : Call) : State :=
  let (bs, chip) := s.chip.receive memory 2
  { s with
    chip
    packInfo := Net.packInfo (bs.getD 0 0)
    headers := s.headers ++ [⟨s.pos, c.len16⟩]
    pc := .addr c (packLen (bs.getD 0 0) (bs.getD 1 0)) }

/-- The address is read to `rip`. -/
def addr (memory : ℕ → UInt8) (c : Call) (packLen : ℕ) : State :=
  let addrlen := if s.packInfo &&& packIPv6 ≠ 0 then 16 else 4
  let (bs, chip) := s.chip.receive memory addrlen
  { s with chip, addresses := s.addresses ++ [bs], pc := .port c packLen }

/-- The port is read. -/
def port (memory : ℕ → UInt8) (c : Call) (packLen : ℕ) : State :=
  let (bs, chip) := s.chip.receive memory 2
  { s with
    chip
    remained := packLen
    packInfo := s.packInfo ||| packFirst
    rport := (bs.getD 0 0).toUInt16 <<< 8 + (bs.getD 1 0).toUInt16
    pc := .data c }

/-- The payload is read to `buf`, as far as there is room for it. -/
def data (memory : ℕ → UInt8) (c : Call) : State :=
  let packLen := if c.len16 < s.remained then c.len16 else s.remained
  let (bs, chip) := s.chip.receive memory packLen
  let remained := s.remained - packLen
  let packInfo := s.packInfo ||| (if remained ≠ 0 then packRemained else packCompleted)
  ({ s with chip, remained, packInfo } : State).recvfromReturn c s.pos packLen bs

end State

/-! ### Runs -/

/-- `arrive`, `tick` and `status` are steps of the network, the clock and the chip, `read` is a call
of `wiz_uros_udp_read`, and `run` is a step of the driver. `memory` is what the buffer holds behind
the received bytes. -/
inductive Act where
  | arrive (d : Datagram)
  | tick (us : ℕ)
  | status (sr : UInt8)
  | read (len : ℕ) (timeout : ℤ)
  | run (memory : ℕ → UInt8)

/-- A datagram arrives. The chip drops it if it does not fit. -/
def State.arrive (s : State) (d : Datagram) : State :=
  if s.chip.rsr + d.bytes.length ≤ rxBufferSize then
    { s with chip := s.chip.store d, accepted := s.accepted ++ [d] }
  else s

/-- A step of the driver. -/
def State.run (s : State) (memory : ℕ → UInt8) : Option State :=
  match s.pc with
  | .idle => none
  | .clock c => some (s.clock c)
  | .poll c => some (s.poll c)
  | .wait c => some (s.wait c)
  | .head c => some (s.head memory c)
  | .addr c n => some (s.addr memory c n)
  | .port c n => some (s.port memory c n)
  | .data c => some (s.data memory c)
  | .sleep c t => if t ≤ s.now then some { s with pc := .clock c } else none

def step (s : State) : Act → Option State
  | .arrive d => some (s.arrive d)
  | .tick us => some { s with now := s.now + us }
  | .status sr => some { s with chip := { s.chip with sr } }
  | .read len timeout =>
    match s.pc with
    | .idle => some (s.udpRead len timeout)
    | _ => none
  | .run memory => s.run memory

end PicoUros.Net
