import PicoUros.Imu.Messages

/-!
# The hardware layer of the sensor hub

The `sh2` library reads transfers through `i2chal_read` (`src/bno08x.cpp`, lines 1105–1200). It
polls the bus for the header of a transfer, and then reads the transfer in pieces of at most 256
bytes. The hub sends a header at the start of every read, so all headers but the first one read
behind the poll are skipped. The time of the transfer is never set: it stays at 0.

The bus is a parameter: a state, and what a read of a number of bytes returns. A read can fail.

## Main definitions

* `Bus`, `Bus.i2chalRead`: the bus, and the function.
* `Bus.Sends R`: in the states `R q` the hub has the bytes `q` of a message left to send, as SHTP
  has it: a read returns a header, and then the next bytes of the message.

## Main results

* `Bus.Sends.i2chalRead_eq`: **reading in pieces returns the whole transfer.**
* `Bus.reads_of_too_long`: a message that does not fit in the buffer is never taken from the hub.
* `Client.service_delivers`: a message that is read is handed over at once, as a whole.
-/

namespace PicoUros.Imu

open Fragment

/-- `_maxBufferSize`. -/
def maxBufferSize : ℕ := 256

/-- A bus: `i2c_read`, for a number of bytes. -/
structure Bus (β : Type*) where
  read : β → ℕ → Option (List UInt8) × β
  length_read : ∀ b n l, (read b n).1 = some l → l.length = n

namespace Bus

variable {β : Type*} (bus : Bus β)

/-- The poll for a header: `attempts` more reads are started before the time is over. -/
def poll : ℕ → β → Option (List UInt8) × β
  | 0, b => bus.read b 4
  | attempts + 1, b =>
    match bus.read b 4 with
    | (some l, b) => (some l, b)
    | (none, b) => poll attempts b

/-- The number of bytes of the next read, when `remaining` bytes of the transfer are missing. -/
def readSize (firstRead : Bool) (remaining : ℕ) : ℕ :=
  if firstRead then min maxBufferSize remaining else min maxBufferSize (remaining + 4)

/-- What a read adds to the transfer: the header of the first read belongs to it. -/
def cargo (firstRead : Bool) (l : List UInt8) : List UInt8 := if firstRead then l else l.drop 4

/-- The loop of `i2chal_read`. -/
def readLoop : ℕ → β → Bool → ℕ → List UInt8 → Option (List UInt8) × β
  | 0, b, _, _, acc => (some acc, b)
  | fuel + 1, b, firstRead, remaining, acc =>
    if remaining = 0 then (some acc, b)
    else
      match bus.read b (readSize firstRead remaining) with
      | (none, b) => (none, b)
      | (some l, b) =>
        readLoop fuel b false (remaining - (cargo firstRead l).length) (acc ++ cargo firstRead l)

/-- The length in a header. -/
def packetSize (l : List UInt8) : ℕ := ((l.getD 0 0).toNat + (l.getD 1 0).toNat * 256) % 0x8000

/-- `i2chal_read`, for the buffer of `shtp_service`: the transfer, empty if there is none. -/
def i2chalRead (attempts : ℕ) (b : β) : List UInt8 × β :=
  match bus.poll attempts b with
  | (none, b) => ([], b)
  | (some l, b) =>
    if maxIn < packetSize l then ([], b)
    else
      match bus.readLoop (packetSize l) b true (packetSize l) [] with
      | (none, b) => ([], b)
      | (some transfer, b) => (transfer, b)

/-! ### A hub that sends a message -/

variable {bus}

/-- In the states `R q` the hub has the bytes `q` of a message left: a read that does not ask for
more returns a header with the length of what is left, and the next bytes. -/
structure Sends (bus : Bus β) (R : List UInt8 → β → Prop) : Prop where
  read : ∀ q b n, R q b → hdrLen ≤ n → n ≤ q.length + hdrLen →
    ∃ hdr b', bus.read b n = (some (hdr ++ q.take (n - hdrLen)), b') ∧ hdr.length = hdrLen ∧
      packetSize hdr = q.length + hdrLen ∧ R (q.drop (n - hdrLen)) b'

namespace Sends

variable {R : List UInt8 → β → Prop} {q : List UInt8} {b : β}

/-- Behind the first read, the loop collects the rest of the message. -/
theorem readLoop_eq (h : bus.Sends R) {fuel : ℕ} (hq : R q b) (hfuel : q.length ≤ fuel)
    (acc : List UInt8) :
    ∃ b', bus.readLoop fuel b false q.length acc = (some (acc ++ q), b') ∧ R [] b' := by
  induction fuel generalizing q b acc with
  | zero =>
    obtain rfl := List.length_eq_zero_iff.mp (Nat.le_zero.mp hfuel)
    exact ⟨b, by simp [readLoop], hq⟩
  | succ fuel ih =>
    unfold readLoop
    split_ifs with hzero
    · obtain rfl := List.length_eq_zero_iff.mp hzero
      exact ⟨b, by simp, hq⟩
    · have hsize :
          hdrLen ≤ readSize false q.length ∧ readSize false q.length ≤ q.length + hdrLen := by
        simp only [readSize, maxBufferSize, hdrLen, Bool.false_eq_true, if_false]
        omega
      obtain ⟨hdr, b', hread, hhdr, -, hrest⟩ := h.read q b _ hq hsize.1 hsize.2
      generalize hk : readSize false q.length - hdrLen = k at hread hrest
      have hkpos : 0 < k := by
        simp only [readSize, maxBufferSize, hdrLen, Bool.false_eq_true, if_false] at hk
        omega
      have hcargo : cargo false (hdr ++ q.take k) = q.take k := by
        rw [cargo, if_neg Bool.false_ne_true, ← hdrLen, ← hhdr, List.drop_left]
      have hleft : q.length - (q.take k).length = (q.drop k).length := by
        rw [List.length_take, List.length_drop]
        omega
      rw [hread]
      simp only [hcargo, hleft]
      obtain ⟨b'', hloop, hend⟩ := ih hrest (by rw [List.length_drop]; omega) (acc ++ q.take k)
      exact ⟨b'', by rw [hloop, List.append_assoc, List.take_append_drop], hend⟩

/-- The poll returns a header, and leaves the message. -/
theorem poll_eq (h : bus.Sends R) (hq : R q b) (attempts : ℕ) :
    ∃ hdr b', bus.poll attempts b = (some hdr, b') ∧ packetSize hdr = q.length + hdrLen ∧
      R q b' := by
  obtain ⟨hdr, b', hread, -, hsize, hrest⟩ := h.read q b hdrLen hq le_rfl (Nat.le_add_left _ _)
  rw [Nat.sub_self, List.take_zero, List.append_nil] at hread
  refine ⟨hdr, b', ?_, hsize, hrest⟩
  cases attempts with
  | zero => exact hread
  | succ attempts => rw [poll, show (4 : ℕ) = hdrLen from rfl, hread]

/-- **Reading in pieces returns the whole transfer**: a header, and the message. -/
theorem i2chalRead_eq (h : bus.Sends R) (hq : R q b) (hfit : q.length + hdrLen ≤ maxIn)
    (attempts : ℕ) :
    ∃ hdr b', bus.i2chalRead attempts b = (hdr ++ q, b') ∧ hdr.length = hdrLen ∧
      packetSize hdr = q.length + hdrLen ∧ R [] b' := by
  obtain ⟨hdr₀, b₀, hpoll, hsize₀, hq₀⟩ := h.poll_eq hq attempts
  have hsize : hdrLen ≤ readSize true (q.length + hdrLen) ∧
      readSize true (q.length + hdrLen) ≤ q.length + hdrLen := by
    simp only [readSize, maxBufferSize, hdrLen, if_true]
    omega
  obtain ⟨hdr, b₁, hread, hhdr, hsize₁, hrest⟩ := h.read q b₀ _ hq₀ hsize.1 hsize.2
  generalize hk : readSize true (q.length + hdrLen) - hdrLen = k at hread hrest
  have hkle : k ≤ q.length := by omega
  have hleft : q.length + hdrLen - (hdr ++ q.take k).length = (q.drop k).length := by
    rw [List.length_append, List.length_take, List.length_drop, hhdr]
    omega
  have hfuel : (q.drop k).length ≤ q.length + 3 := by
    rw [List.length_drop]
    omega
  obtain ⟨b₂, hloop, hend⟩ := h.readLoop_eq hrest hfuel (hdr ++ q.take k)
  refine ⟨hdr, b₂, ?_, hhdr, hsize₁, hend⟩
  have hwhole : bus.readLoop (q.length + hdrLen) b₀ true (q.length + hdrLen) [] =
      (some (hdr ++ q), b₂) := by
    rw [show q.length + hdrLen = (q.length + 3) + 1 from rfl, readLoop,
      if_neg (Nat.succ_ne_zero _)]
    rw [show (q.length + 3) + 1 = q.length + hdrLen from rfl, hread]
    simp only [cargo, if_true, List.nil_append, hleft, hloop, List.append_assoc,
      List.take_append_drop]
  simp only [i2chalRead, hpoll, hsize₀, if_neg hfit.not_gt, hwhole]

/-- A message that does not fit in the buffer is not read, and stays where it is. -/
theorem i2chalRead_too_long (h : bus.Sends R) (hq : R q b) (hlong : maxIn < q.length + hdrLen)
    (attempts : ℕ) : ∃ b', bus.i2chalRead attempts b = ([], b') ∧ R q b' := by
  obtain ⟨hdr, b', hpoll, hsize, hrest⟩ := h.poll_eq hq attempts
  exact ⟨b', by simp only [i2chalRead, hpoll, hsize, if_pos hlong], hrest⟩

end Sends

/-- The transfers of repeated reads, and the bus behind them. -/
def reads (bus : Bus β) : List ℕ → β → List (List UInt8) × β
  | [], b => ([], b)
  | attempts :: rest, b =>
    let (transfer, b) := bus.i2chalRead attempts b
    let (transfers, b) := bus.reads rest b
    (transfer :: transfers, b)

/-- **A message that does not fit in the buffer blocks the hub**: no read returns anything from then
on, and the message is never taken from the hub. -/
theorem reads_of_too_long {R : List UInt8 → β → Prop} (h : bus.Sends R) {q : List UInt8} {b : β}
    (hq : R q b) (hlong : maxIn < q.length + hdrLen) (attempts : List ℕ) :
    (∀ transfer ∈ (bus.reads attempts b).1, transfer = []) ∧ R q (bus.reads attempts b).2 := by
  induction attempts generalizing b with
  | nil => exact ⟨fun _ ht => absurd ht List.not_mem_nil, hq⟩
  | cons n attempts ih =>
    obtain ⟨b', hread, hrest⟩ := h.i2chalRead_too_long hq hlong n
    obtain ⟨hall, hend⟩ := ih hrest
    simp only [reads, hread]
    refine ⟨fun transfer ht => ?_, hend⟩
    rcases List.mem_cons.mp ht with rfl | ht
    exacts [rfl, hall transfer ht]

/-- A hub with a message for channel 2. It answers each read with a header and the next bytes of the
message, and fills up with zeros. -/
def messageBus : Bus (List UInt8) where
  read q n := (some ((([UInt8.ofNat (q.length + hdrLen), UInt8.ofNat ((q.length + hdrLen) / 256), 2,
    0] ++ q) ++ List.replicate n 0).take n), q.drop (n - hdrLen))
  length_read q n l h := by
    obtain rfl := Option.some.inj h
    rw [List.length_take, List.length_append, List.length_replicate]
    exact min_eq_left (Nat.le_add_left _ _)

theorem messageBus_sends : messageBus.Sends fun q b => b = q ∧ q.length + hdrLen < 0x8000 where
  read q b n := by
    rintro ⟨rfl, hlen⟩ hmin hmax
    obtain ⟨k, rfl⟩ := Nat.exists_eq_add_of_le hmin
    refine ⟨[UInt8.ofNat (b.length + hdrLen), UInt8.ofNat ((b.length + hdrLen) / 256), 2, 0],
      b.drop k, ?_, rfl, ?_, by rw [Nat.add_sub_cancel_left], ?_⟩
    · have hk : k ≤ b.length := by omega
      simp only [messageBus, Nat.add_sub_cancel_left, List.append_assoc]
      rw [List.take_append, List.take_append_of_le_length (by simp [hdrLen]; omega),
        List.take_of_length_le (by simp [hdrLen])]
      simp [hdrLen]
    · simp only [packetSize, List.getD_cons_zero, List.getD_cons_succ, UInt8.toNat_ofNat']
      omega
    · rw [List.length_drop]
      omega

/-- A message of 400 bytes. -/
theorem reads_of_too_long_400 :
    (messageBus.reads [0, 3, 1] (List.replicate 400 0)).2 = List.replicate 400 0 ∧
      ∀ transfer ∈ (messageBus.reads [0, 3, 1] (List.replicate 400 0)).1, transfer = [] :=
  have h := reads_of_too_long messageBus_sends (b := List.replicate 400 0)
    ⟨rfl, by decide +kernel⟩ (by decide +kernel) [0, 3, 1]
  ⟨h.2.1, h.1⟩

end Bus

/-! ### Messages through the hardware layer -/

/-- The transfer is a header and all of the message that the header announces. -/
def Whole (x : List UInt8 × UInt32) : Prop :=
  ∃ hdr q, x = (hdr ++ q, 0) ∧ hdr.length = hdrLen ∧ Bus.packetSize hdr = q.length + hdrLen ∧
    q.length + hdrLen ≤ maxIn

/-- What is read of a hub that sends a message is the whole message. -/
theorem Bus.Sends.whole {β : Type*} {bus : Bus β} {R : List UInt8 → β → Prop} {q : List UInt8}
    {b : β} (h : bus.Sends R) (hq : R q b) (hfit : q.length + hdrLen ≤ maxIn) (attempts : ℕ) :
    Whole ((bus.i2chalRead attempts b).1, 0) := by
  obtain ⟨hdr, b', hread, hhdr, hsize, -⟩ := h.i2chalRead_eq hq hfit attempts
  exact ⟨hdr, q, by rw [hread], hhdr, hsize, hfit⟩

/-- A whole message leaves nothing. -/
theorem Whole.piece {n : ℕ} {hdr q : List UInt8} {f : Piece} (hhdr : hdr.length = hdrLen)
    (hsize : Bus.packetSize hdr = q.length + hdrLen) (hf : piece n (hdr ++ q, 0) = some f) :
    f.left = 0 ∧ f.data = (q, 0) := by
  obtain ⟨h, hh, hlen, -, -, -, hleft, hdata⟩ := piece_eq_some_iff.mp hf
  obtain ⟨b₀, b₁, chan, seq, rfl⟩ : ∃ b₀ b₁ chan seq, hdr = [b₀, b₁, chan, seq] :=
    List.length_eq_four.mp hhdr
  obtain rfl := Option.some.inj hh
  have hpayload : (b₀.toNat + b₁.toNat * 256) % 0x8000 = q.length + hdrLen := hsize
  have hbody : body ⟨(b₀.toNat + b₁.toNat * 256) % 0x8000, decide (0x80 ≤ b₁.toNat), chan, seq⟩
      ([b₀, b₁, chan, seq] ++ q) = q := by
    have htake : ([b₀, b₁, chan, seq] ++ q).take (q.length + hdrLen) = [b₀, b₁, chan, seq] ++ q :=
      List.take_of_length_le (by simp [hdrLen])
    rw [body, hpayload, htake]
    rfl
  rw [hbody] at hleft hdata
  refine ⟨?_, hdata⟩
  simp only [hpayload] at hleft
  omega

namespace Client

variable {k l : Client}

/-- Nothing is under construction when every message has come in one transfer. -/
theorem assembles_nil_of_whole {as : List Act} (h : Machine.run step start as = some k)
    (hwhole : ∀ x ∈ as.filterMap Act.received, Whole x) : Assembles k.sh2 [] := by
  have hleft : ∀ f ∈ receivedPieces as, f.left = 0 := by
    intro f hf
    obtain ⟨x, hx, hpiece⟩ := List.mem_filterMap.mp hf
    obtain ⟨hdr, q, rfl, hhdr, hsize, -⟩ := hwhole x hx
    exact (Whole.piece hhdr hsize hpiece).1
  have hp := (assembles_of_run .sh2Open (.nil rfl) h).1
  rwa [assemble_fst_eq_nil (· + 1) Starts hleft] at hp

/-- **A message that is read through the hardware layer is handed over at once, as a whole**: when
everything before was read of a hub that sends messages, the function of the channel is called with
the message, and the time 0. -/
theorem service_delivers {β : Type*} {bus : Bus β} {R : List UInt8 → β → Prop} {as : List Act}
    {q : List UInt8} {b : β} {attempts : ℕ} {f : Piece}
    (h : Machine.run step start as = some k)
    (hwhole : ∀ x ∈ as.filterMap Act.received, Whole x) (hbus : bus.Sends R) (hq : R q b)
    (hfit : q.length + hdrLen ≤ maxIn)
    (hf : piece listeners.length ((bus.i2chalRead attempts b).1, 0) = some f)
    (hl : k.service (bus.i2chalRead attempts b).1 0 = some l) :
    l.sh2.calls = k.sh2.calls ++
      ((k.sh2.shtp.chan f.chan).callback.map fun cb => ⟨cb, q, 0⟩).toList := by
  have hok : k.sh2.Ok := Reachable.ok ⟨as, h⟩
  have hnil := assembles_nil_of_whole h hwhole
  obtain ⟨hdr, b', hread, hhdr, hsize, -⟩ := hbus.i2chalRead_eq hq hfit attempts
  rw [hread] at hf hl
  obtain ⟨hleft, hdata⟩ := Whole.piece hhdr hsize hf
  obtain ⟨-, ⟨hempty, -⟩ | ⟨-, hrx, -⟩⟩ := service_sh2 hl
  · have hhdr0 : hdr = [] := (List.append_eq_nil_iff.mp hempty).1
    rw [hhdr0] at hhdr
    cases hhdr
  · obtain ⟨-, -, hcalls⟩ := hnil.rxAssemble (hok.chanListener ▸ hf) hrx
    have hstarts : Starts f := by
      simp only [Starts, hleft, hdata]
      omega
    rw [push_of_new not_joins_nil hstarts, if_pos hleft] at hcalls
    rw [hcalls, List.filterMap_cons, List.filterMap_nil]
    have hcallOf : callOf k.sh2.shtp [f] =
        (k.sh2.shtp.chan f.chan).callback.map fun cb => ⟨cb, q, 0⟩ := by
      simp [callOf, bytesOf, hdata]
    rw [hcallOf]
    cases (k.sh2.shtp.chan f.chan).callback <;> rfl

/-- The response to a request arrives behind the advertisement. -/
theorem service_delivers_first : ∃ k l : Client,
    Machine.run step start [.service advertisement 0] = some k ∧
      k.service (Bus.messageBus.i2chalRead 0 [0xF1, 0, 0x84]).1 0 = some l ∧
      l.sh2.calls = k.sh2.calls ++ [⟨.sensorhubControlHdlr, [0xF1, 0, 0x84], 0⟩] := by
  obtain ⟨k, -, hk, hcb, -⟩ := exists_advertised
  have hread : (Bus.messageBus.i2chalRead 0 [0xF1, 0, 0x84]).1 = [7, 0, 2, 0, 0xF1, 0, 0x84] := by
    decide +kernel
  obtain ⟨l, hl⟩ := Option.isSome_iff_exists.mp (show ((Machine.run step start
    [.service advertisement 0]).bind fun k =>
      k.service (Bus.messageBus.i2chalRead 0 [0xF1, 0, 0x84]).1 0).isSome by decide +kernel)
  rw [hk, Option.bind_some] at hl
  have hwhole : Whole (advertisement, 0) :=
    ⟨advertisement.take 4, advertisement.drop 4, rfl, rfl, rfl, by decide⟩
  have hpiece : piece listeners.length ([7, 0, 2, 0, 0xF1, 0, 0x84], 0) =
      some ⟨2, 0, false, 0, ([0xF1, 0, 0x84], 0)⟩ := by
    simp [piece, header, body, Sh2.channel, hdrLen, listeners, sensorhubListeners]
  have hcalls := service_delivers hk (by simpa [Act.received, advertisement] using hwhole)
    Bus.messageBus_sends ⟨rfl, by decide⟩ (by decide) (hread ▸ hpiece) hl
  rw [hcb] at hcalls
  exact ⟨k, l, hk, hl, hcalls⟩

end Client

end PicoUros.Imu
