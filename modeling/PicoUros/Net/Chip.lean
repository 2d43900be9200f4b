import Mathlib.Data.List.OfFn
import Mathlib.Data.List.Range
import Mathlib.Data.Fintype.Basic

/-!
# Datagrams in the receive buffer of the W6100

The chip stores a UDP datagram in the receive buffer of the socket as an info word, the address and
the port of the sender, and the payload. The host reads bytes from `Sn_RX_RD` on with
`wiz_recv_data`, and frees what it has read with the command `RECV` (`w6100.c`, lines 243–253). The
buffer is a queue of bytes, and `Sn_RX_RSR` is its length.

## Main definitions

* `Datagram`, `Datagram.bytes`: a datagram over IPv4, and what the chip stores for it.
* `Chip`, `Chip.store`, `Chip.recvData`, `Chip.recv`: the receive side of a socket.
* `packLen`, `packInfo`: what the driver makes of an info word.

## Main results

* `Datagram.packLen_eq`, `Datagram.packInfo_eq`: the driver gets the length of the payload and an
  IPv4 address from the info word of a datagram.
* `Chip.receive_eq`: a read within the buffer takes bytes from its front.
-/

namespace PicoUros.Net

/-! ### Datagrams -/

/-- A datagram over IPv4. The length of the payload is a number of 11 bits. -/
structure Datagram where
  /-- The bits 3 to 6 of the first byte. Bit 7, for IPv6, is clear. -/
  flags : Fin 16
  addr : Fin 4 → UInt8
  port : UInt16
  payload : List UInt8
  length_lt : payload.length < 2048

/-- `pack_len`, from the two bytes of an info word. -/
def packLen (hi lo : UInt8) : ℕ := (hi &&& 0x07).toNat * 256 + lo.toNat

/-- `sock_pack_info`, from the first byte of an info word. -/
def packInfo (hi : UInt8) : UInt8 := hi &&& 0xF8

/-- `PACK_IPv6`. -/
def packIPv6 : UInt8 := 0x80

namespace Datagram

variable (d : Datagram)

def infoHi : UInt8 := .ofNat (d.flags * 8 + d.payload.length / 256)

def infoLo : UInt8 := .ofNat (d.payload.length % 256)

/-- What the chip stores. -/
def bytes : List UInt8 :=
  [d.infoHi, d.infoLo] ++ (List.ofFn d.addr ++ ([.ofNat (d.port.toNat / 256),
    .ofNat (d.port.toNat % 256)] ++ d.payload))

theorem length_bytes : d.bytes.length = 8 + d.payload.length := by
  simp [bytes]
  omega

theorem drop_two_bytes : d.bytes.drop 2 = List.ofFn d.addr ++
    ([.ofNat (d.port.toNat / 256), .ofNat (d.port.toNat % 256)] ++ d.payload) := rfl

theorem drop_six_bytes : d.bytes.drop 6 =
    [.ofNat (d.port.toNat / 256), .ofNat (d.port.toNat % 256)] ++ d.payload := by
  rw [show 6 = 2 + 4 from rfl, ← List.drop_drop, drop_two_bytes,
    List.drop_append_of_le_length (by simp), List.drop_of_length_le (by simp), List.nil_append]

theorem drop_eight_bytes : d.bytes.drop 8 = d.payload := by
  rw [show 8 = 6 + 2 from rfl, ← List.drop_drop, drop_six_bytes]
  rfl

private theorem info_bits : ∀ (flags : Fin 16) (n : Fin 8),
    ((UInt8.ofNat (flags * 8 + n)) &&& 0x07).toNat = n ∧
      packInfo (UInt8.ofNat (flags * 8 + n)) &&& packIPv6 = 0 := by
  decide

theorem packLen_eq : packLen d.infoHi d.infoLo = d.payload.length := by
  have hlt := d.length_lt
  have hbits := (info_bits d.flags ⟨d.payload.length / 256, by omega⟩).1
  have hlo : d.infoLo.toNat = d.payload.length % 256 := by
    rw [infoLo, UInt8.toNat_ofNat', Nat.mod_mod]
  rw [packLen, infoHi, hbits, hlo]
  exact Nat.div_add_mod' _ _

theorem packInfo_eq : packInfo d.infoHi &&& packIPv6 = 0 := by
  have hlt := d.length_lt
  exact (info_bits d.flags ⟨d.payload.length / 256, by omega⟩).2

end Datagram

/-! ### The chip -/

/-- `SOCK_CLOSED`. -/
def sockClosed : UInt8 := 0x00

/-- `SOCK_UDP`. -/
def sockUdp : UInt8 := 0x22

/-- The size of the receive buffer that `wizchip_initialize` sets, for each socket. -/
def rxBufferSize : ℕ := 2048

structure Chip where
  /-- The bytes received and not freed. -/
  rx : List UInt8 := []
  /-- `Sn_RX_RD`, counted from the first byte of `rx`. -/
  rd : ℕ := 0
  /-- `Sn_SR`. -/
  sr : UInt8 := sockUdp

namespace Chip

/-- `getSn_RX_RSR`. -/
def rsr (c : Chip) : ℕ := c.rx.length

/-- A datagram that fits is stored. -/
def store (c : Chip) (d : Datagram) : Chip := { c with rx := c.rx ++ d.bytes }

/-- `wiz_recv_data`. A read that goes beyond the received bytes gets what the memory holds there. -/
def recvData (c : Chip) (memory : ℕ → UInt8) (len : ℕ) : List UInt8 × Chip :=
  ((List.range len).map fun i => (c.rx.drop c.rd).getD i (memory i), { c with rd := c.rd + len })

/-- The command `RECV`. -/
def recv (c : Chip) : Chip := { c with rx := c.rx.drop c.rd, rd := 0 }

/-- `wiz_recv_data`, followed by `RECV`. -/
def receive (c : Chip) (memory : ℕ → UInt8) (len : ℕ) : List UInt8 × Chip :=
  let (bs, c) := c.recvData memory len
  (bs, c.recv)

theorem length_receive (c : Chip) (memory : ℕ → UInt8) (len : ℕ) :
    (c.receive memory len).1.length = len := by
  simp [receive, recvData]

/-- A read within the buffer takes bytes from its front. -/
theorem receive_eq {c : Chip} {front rest : List UInt8} (hrx : c.rx = front ++ rest)
    (hrd : c.rd = 0) (memory : ℕ → UInt8) {len : ℕ} (hlen : len ≤ front.length) :
    c.receive memory len = (front.take len, { c with rx := front.drop len ++ rest, rd := 0 }) := by
  refine Prod.ext ?_ ?_
  · refine List.ext_getElem (by simpa [receive, recvData] using hlen) fun i h _ => ?_
    have hi : i < front.length := by
      rw [length_receive] at h
      omega
    simp [receive, recvData, hrx, hrd, List.getElem?_append_left hi, List.getElem?_eq_getElem hi]
  · simp [receive, recvData, recv, hrx, hrd, List.drop_append_of_le_length hlen]

end Chip

end PicoUros.Net
