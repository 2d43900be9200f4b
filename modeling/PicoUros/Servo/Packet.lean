import PicoUros.Lib.Framing
import PicoUros.Servo.Command

/-!
# The packets on the servo bus

`SCS` sends a command to a servo as a packet: two bytes `0xff`, the id of the servo, the length, the
instruction, the parameters and a checksum (`SCS.cpp`, lines 59–148, 170–174, 229–233 and 304–323).
The length counts the bytes behind it, in one byte, and nothing checks that it fits.
`SMS_STS::WritePosEx` makes the parameters of a position command (`SMS_STS.cpp`, lines 21–34).

The bytes that a function writes are its result here. What it reads before and after is the subject
of `PicoUros.Servo.Reply`.

## Main definitions

* `frame`: the layout of a packet, and `Packet`: one whose length fits.
* `Command`, `Command.tx`: the functions of `SCS` that send, and what they write.
* `writePosEx`: a position command.
* `State.bus`: the bytes that core 1 has written on the bus.

## Main results

* `Packet.prefixFree`: the packets in a stream of bytes can be read back.
* `Command.exists_packet_iff`: what a command writes is a packet exactly if its length fits.
* `bus_carries_requests`: the bus carries accepted requests, and tells which.
-/

namespace PicoUros.Servo

open LatestQueue (Tagged tagAll)

/-! ### Packets -/

/-- A header, an id, a length, an instruction, parameters, and the checksum of what is behind the
header. -/
def frame (id len inst : UInt8) (params : List UInt8) : List UInt8 :=
  [0xff, 0xff] ++ (id :: len :: inst :: params) ++ [checksum (id :: len :: inst :: params)]

theorem length_frame (id len inst : UInt8) (params : List UInt8) :
    (frame id len inst params).length = params.length + 6 := by
  simp [frame]

/-- A packet whose length fits in its byte. -/
structure Packet where
  id : UInt8
  inst : UInt8
  params : List UInt8
  length_lt : params.length + 2 < 256

namespace Packet

def len (p : Packet) : UInt8 := .ofNat (p.params.length + 2)

def bytes (p : Packet) : List UInt8 := frame p.id p.len p.inst p.params

theorem toNat_len (p : Packet) : p.len.toNat = p.params.length + 2 :=
  UInt8.toNat_ofNat_of_lt' p.length_lt

/-- **A packet tells where it ends.** -/
theorem prefixFree : PrefixFree bytes := by
  intro p q r r' heq
  simp only [bytes, frame, List.cons_append, List.nil_append, List.append_assoc,
    List.cons.injEq, true_and] at heq
  obtain ⟨hid, hlen, hinst, hrest⟩ := heq
  have hparams : p.params.length = q.params.length := by
    have := congrArg UInt8.toNat hlen
    rw [toNat_len, toNat_len] at this
    omega
  obtain ⟨id, inst, params, hlt⟩ := p
  obtain ⟨id', inst', params', hlt'⟩ := q
  obtain rfl : params = params' := (List.append_inj hrest hparams).1
  obtain rfl : id = id' := hid
  obtain rfl : inst = inst' := hinst
  rfl

theorem bytes_ne_nil (p : Packet) : p.bytes ≠ [] := List.cons_ne_nil _ _

/-- The packets of a stream can be read back. -/
theorem flatMap_bytes_injective : Function.Injective fun ps : List Packet => ps.flatMap bytes :=
  prefixFree.flatMap_injective bytes_ne_nil

/-- A frame is a packet exactly if its length is that of its parameters. -/
theorem exists_bytes_eq_frame_iff {id len inst : UInt8} {params : List UInt8} :
    (∃ p : Packet, p.bytes = frame id len inst params) ↔ len.toNat = params.length + 2 := by
  constructor
  · rintro ⟨p, hp⟩
    have hparams := congrArg List.length hp
    rw [bytes, length_frame, length_frame] at hparams
    simp only [bytes, frame, List.cons_append, List.nil_append, List.cons.injEq, true_and] at hp
    rw [← hp.2.1, toNat_len]
    omega
  · intro hlen
    have hlt := len.toNat_lt
    have hfit : UInt8.ofNat (params.length + 2) = len := by rw [← hlen, UInt8.ofNat_toNat]
    exact ⟨⟨id, inst, params, by omega⟩, congrArg (frame id · inst params) hfit⟩

end Packet

/-! ### The functions that send -/

/-- An array and its length, which is a `u8`. -/
structure Block where
  elems : List UInt8
  length_lt : elems.length < 256

namespace Block

def len (b : Block) : UInt8 := .ofNat b.elems.length

/-- One byte. -/
def single (b : UInt8) : Block := ⟨[b], by simp⟩

theorem toNat_len (b : Block) : b.len.toNat = b.elems.length := UInt8.toNat_ofNat_of_lt' b.length_lt

end Block

/-- `writeBuf`. Without data, `MemAddr` is not sent. -/
def writeBuf (id memAddr : UInt8) (nDat : Option Block) (inst : UInt8) : List UInt8 :=
  match nDat with
  | some nDat =>
    let msgLen := 2 + (nDat.len + 1)
    let checkSum := nDat.elems.foldl (· + ·) (id + msgLen + inst + memAddr)
    [0xff, 0xff, id, msgLen, inst, memAddr] ++ nDat.elems ++ [~~~ checkSum]
  | none =>
    let msgLen := 2
    let checkSum := id + msgLen + inst + memAddr
    [0xff, 0xff, id, msgLen, inst] ++ [~~~ checkSum]

/-- What `syncWrite` writes for the servos: their ids, each with `nLen` bytes of `nDat`. -/
def syncBlocks (nLen : ℕ) : List UInt8 → List UInt8 → List UInt8
  | [], _ => []
  | id :: ids, nDat => id :: (nDat.take nLen ++ syncBlocks nLen ids (nDat.drop nLen))

/-- `syncWrite`. -/
def syncWrite (ids : Block) (memAddr nLen : UInt8) (nDat : List UInt8) : List UInt8 :=
  let mesLen := (nLen + 1) * ids.len + 4
  let blocks := syncBlocks nLen.toNat ids.elems nDat
  let sum := blocks.foldl (· + ·) (0xfe + mesLen + 0x83 + memAddr + nLen)
  [0xff, 0xff, 0xfe, mesLen, 0x83, memAddr, nLen] ++ blocks ++ [~~~ sum]

/-- `syncReadPacketTx`. -/
def syncReadPacketTx (ids : Block) (memAddr nLen : UInt8) : List UInt8 :=
  let checkSum := ids.elems.foldl (· + ·) (4 + 0xfe + ids.len + memAddr + nLen + 0x82)
  [0xff, 0xff, 0xfe, ids.len + 4, 0x82, memAddr, nLen] ++ ids.elems ++ [~~~ checkSum]

/-- The bytes of a word on the bus, in the order of `Host2SCS`: the low byte first, unless `End` is
set. -/
def host2Scs (scsEnd : Bool) (data : UInt16) : List UInt8 :=
  let high := (data >>> 8).toUInt8
  let low := (data &&& 0xff).toUInt8
  if scsEnd then [high, low] else [low, high]

/-- `SCS2Host`. -/
def scs2Host (scsEnd : Bool) (dataL dataH : UInt8) : UInt16 :=
  if scsEnd then dataL.toUInt16 <<< 8 ||| dataH.toUInt16
  else dataH.toUInt16 <<< 8 ||| dataL.toUInt16

theorem join_split (data : UInt16) :
    (data >>> 8).toUInt8.toUInt16 <<< 8 ||| (data &&& 0xff).toUInt8.toUInt16 = data := by
  have hlt := data.toNat_lt
  have hlow : (data.toNat &&& 255) % 256 = data.toNat % 2 ^ 8 := by
    rw [Nat.and_two_pow_sub_one_eq_mod _ 8, Nat.mod_mod]
  have hhigh : (data.toNat >>> 8 % 256) <<< 8 % 65536 = (data.toNat >>> 8) <<< 8 := by
    rw [Nat.shiftRight_eq_div_pow, Nat.shiftLeft_eq, Nat.shiftLeft_eq]
    omega
  apply UInt16.toNat_inj.mp
  simp only [UInt16.toNat_or, UInt16.toNat_shiftLeft, UInt8.toNat_toUInt16, UInt16.toNat_toUInt8,
    UInt16.toNat_shiftRight, UInt16.toNat_and, UInt16.toNat_ofNat]
  norm_num
  rw [hhigh, hlow, ← Nat.shiftLeft_add_eq_or_of_lt (Nat.mod_lt _ (by norm_num)), Nat.shiftLeft_eq,
    Nat.shiftRight_eq_div_pow]
  omega

/-- **`SCS2Host` inverts `Host2SCS`.** -/
theorem scs2Host_host2Scs {scsEnd : Bool} {data : UInt16} {dataL dataH : UInt8}
    (h : host2Scs scsEnd data = [dataL, dataH]) : scs2Host scsEnd dataL dataH = data := by
  cases scsEnd <;>
    simp only [host2Scs, Bool.false_eq_true, if_true, if_false, List.cons.injEq, and_true] at h <;>
    rw [← h.1, ← h.2] <;> exact join_split data

theorem host2Scs_injective (scsEnd : Bool) : Function.Injective (host2Scs scsEnd) := by
  intro data data' heq
  obtain ⟨dataL, dataH, h⟩ : ∃ dataL dataH, host2Scs scsEnd data = [dataL, dataH] := by
    cases scsEnd <;> exact ⟨_, _, rfl⟩
  exact (scs2Host_host2Scs h).symm.trans (scs2Host_host2Scs (heq ▸ h))

/-- A call of a function that sends a command. -/
inductive Command where
  | genWrite (id memAddr : UInt8) (nDat : Block)
  | regWrite (id memAddr : UInt8) (nDat : Block)
  | regWriteAction (id : UInt8)
  | syncWrite (ids : Block) (memAddr nLen : UInt8) (nDat : List UInt8)
    (length_eq : nDat.length = nLen.toNat * ids.elems.length)
  | read (id memAddr nLen : UInt8)
  | ping (id : UInt8)
  | syncReadPacketTx (ids : Block) (memAddr nLen : UInt8)

namespace Command

/-- What the function writes. -/
def tx : Command → List UInt8
  | genWrite id memAddr nDat => writeBuf id memAddr (some nDat) 0x03
  | regWrite id memAddr nDat => writeBuf id memAddr (some nDat) 0x04
  | regWriteAction id => writeBuf id 0 none 0x05
  | syncWrite ids memAddr nLen nDat _ => Servo.syncWrite ids memAddr nLen nDat
  | read id memAddr nLen => writeBuf id memAddr (some (.single nLen)) 0x02
  | ping id => writeBuf id 0 none 0x01
  | syncReadPacketTx ids memAddr nLen => Servo.syncReadPacketTx ids memAddr nLen

/-- The servo that is addressed, or all of them. -/
def id : Command → UInt8
  | genWrite id _ _ | regWrite id _ _ | regWriteAction id | read id _ _ | ping id => id
  | syncWrite .. | syncReadPacketTx .. => 0xfe

def inst : Command → UInt8
  | genWrite .. => 0x03
  | regWrite .. => 0x04
  | regWriteAction .. => 0x05
  | syncWrite .. => 0x83
  | read .. => 0x02
  | ping .. => 0x01
  | syncReadPacketTx .. => 0x82

/-- The parameters of the command. -/
def params : Command → List UInt8
  | genWrite _ memAddr nDat | regWrite _ memAddr nDat => memAddr :: nDat.elems
  | regWriteAction _ | ping _ => []
  | syncWrite ids memAddr nLen nDat _ => memAddr :: nLen :: syncBlocks nLen.toNat ids.elems nDat
  | read _ memAddr nLen => [memAddr, nLen]
  | syncReadPacketTx ids memAddr nLen => memAddr :: nLen :: ids.elems

/-- The sum in a loop, and the checksum. -/
theorem not_foldl_add (l : List UInt8) (a : UInt8) : ~~~ l.foldl (· + ·) a = checksum (a :: l) := by
  have hfoldl : l.foldl (· + ·) a = a + l.sum := by
    induction l generalizing a with
    | nil => simp
    | cons b l ih => rw [List.foldl_cons, ih, List.sum_cons, UInt8.add_assoc]
  rw [checksum, List.sum_cons, hfoldl]

/-- What `writeBuf` writes with data. -/
theorem writeBuf_some (id memAddr inst : UInt8) (nDat : Block) :
    writeBuf id memAddr (some nDat) inst =
      frame id (.ofNat (nDat.elems.length + 3)) inst (memAddr :: nDat.elems) := by
  have hlen : 2 + (nDat.len + 1) = UInt8.ofNat (nDat.elems.length + 3) := by
    rw [Block.len]
    apply UInt8.toNat_inj.mp
    simp only [UInt8.toNat_add, UInt8.toNat_ofNat', UInt8.toNat_ofNat]
    omega
  have hsum : checksum ((id + .ofNat (nDat.elems.length + 3) + inst + memAddr) :: nDat.elems) =
      checksum (id :: .ofNat (nDat.elems.length + 3) :: inst :: memAddr :: nDat.elems) := by
    rw [checksum_inj]
    simp only [List.sum_cons, UInt8.add_assoc]
  simp only [writeBuf, hlen, not_foldl_add, hsum]
  rfl

/-- What `writeBuf` writes without data. -/
theorem writeBuf_none (id inst : UInt8) : writeBuf id 0 none inst = frame id 2 inst [] := by
  have hsum : ~~~ (id + 2 + inst + 0) = checksum [id, 2, inst] := by
    simp only [checksum, List.sum_cons, List.sum_nil, UInt8.add_assoc]
  simp only [writeBuf, hsum]
  rfl

theorem length_syncBlocks {nLen : ℕ} {ids nDat : List UInt8} (h : nDat.length = nLen * ids.length) :
    (syncBlocks nLen ids nDat).length = (nLen + 1) * ids.length := by
  induction ids generalizing nDat with
  | nil => rfl
  | cons id ids ih =>
    rw [List.length_cons, Nat.mul_succ] at h
    rw [syncBlocks, List.length_cons, List.length_append, ih (by rw [List.length_drop]; omega),
      List.length_take, List.length_cons, h]
    rw [Nat.mul_succ, Nat.min_eq_left (Nat.le_add_left _ _)]
    omega

/-- **Every command writes a frame**, with the length cut to a byte. -/
theorem tx_eq (c : Command) : c.tx = frame c.id (.ofNat (c.params.length + 2)) c.inst c.params := by
  cases c with
  | genWrite id memAddr nDat => exact writeBuf_some id memAddr 0x03 nDat
  | regWrite id memAddr nDat => exact writeBuf_some id memAddr 0x04 nDat
  | regWriteAction id => exact writeBuf_none id 0x05
  | syncWrite ids memAddr nLen nDat length_eq =>
    have hblocks := length_syncBlocks length_eq
    have hlen : (nLen + 1) * ids.len + 4 =
        UInt8.ofNat ((syncBlocks nLen.toNat ids.elems nDat).length + 2 + 2) := by
      apply UInt8.toNat_inj.mp
      rw [hblocks]
      simp only [UInt8.toNat_add, UInt8.toNat_mul, UInt8.toNat_ofNat', UInt8.toNat_ofNat,
        Block.toNat_len]
      rw [Nat.mod_mul_mod, Nat.mod_add_mod]
    have hsum (blocks : List UInt8) (len : UInt8) :
        checksum ((0xfe + len + 0x83 + memAddr + nLen) :: blocks) =
          checksum (0xfe :: len :: 0x83 :: memAddr :: nLen :: blocks) := by
      rw [checksum_inj]
      simp only [List.sum_cons, UInt8.add_assoc]
    simp only [tx, Servo.syncWrite, not_foldl_add, hsum, hlen]
    rfl
  | read id memAddr nLen => exact writeBuf_some id memAddr 0x02 (.single nLen)
  | ping id => exact writeBuf_none id 0x01
  | syncReadPacketTx ids memAddr nLen =>
    have hlen : ids.len + 4 = UInt8.ofNat (ids.elems.length + 2 + 2) := by
      apply UInt8.toNat_inj.mp
      simp only [Block.len, UInt8.toNat_add, UInt8.toNat_ofNat', UInt8.toNat_ofNat]
      omega
    have hsum : checksum ((4 + 0xfe + ids.len + memAddr + nLen + 0x82) :: ids.elems) =
        checksum (0xfe :: (ids.len + 4) :: 0x82 :: memAddr :: nLen :: ids.elems) := by
      rw [checksum_inj]
      simp only [List.sum_cons]
      ac_rfl
    simp only [tx, Servo.syncReadPacketTx, not_foldl_add, hsum]
    rw [hlen]
    rfl

/-- **What a command writes is a packet exactly if its length fits in a byte.** -/
theorem exists_packet_iff (c : Command) :
    (∃ p : Packet, p.bytes = c.tx) ↔ c.params.length + 2 < 256 := by
  rw [tx_eq, Packet.exists_bytes_eq_frame_iff, UInt8.toNat_ofNat']
  omega

end Command

/-! ### Position commands -/

/-- The sign is moved to bit 15. -/
def signMagnitude (position : Int16) : UInt16 :=
  if position < 0 then (-position).toUInt16 ||| 0x8000 else position.toUInt16

/-- The seven bytes from the address `SMS_STS_ACC` on. -/
def posBytes (scsEnd : Bool) (position : Int16) (speed : UInt16) (acc : UInt8) : List UInt8 :=
  [acc] ++ host2Scs scsEnd (signMagnitude position) ++ host2Scs scsEnd 0 ++ host2Scs scsEnd speed

theorem length_posBytes (scsEnd : Bool) (position : Int16) (speed : UInt16) (acc : UInt8) :
    (posBytes scsEnd position speed acc).length = 7 := by
  cases scsEnd <;> rfl

def posBlock (scsEnd : Bool) (position : Int16) (speed : UInt16) (acc : UInt8) : Block :=
  ⟨posBytes scsEnd position speed acc, by rw [length_posBytes]; decide⟩

/-- `WritePosEx`. -/
def writePosEx (scsEnd : Bool) (id : UInt8) (position : Int16) (speed : UInt16) (acc : UInt8) :
    Command :=
  .genWrite id 41 (posBlock scsEnd position speed acc)

/-- `offbuf` in `SyncWritePosEx`. The speeds and the accelerations may be null pointers. -/
def offbuf (scsEnd : Bool) (idn : ℕ) (position : ℕ → Int16) (speed : Option (ℕ → UInt16))
    (acc : Option (ℕ → UInt8)) : List UInt8 :=
  (List.range idn).flatMap fun i =>
    posBytes scsEnd (position i) (speed.elim 0 (· i)) (acc.elim 0 (· i))

theorem length_offbuf (scsEnd : Bool) (idn : ℕ) (position : ℕ → Int16)
    (speed : Option (ℕ → UInt16)) (acc : Option (ℕ → UInt8)) :
    (offbuf scsEnd idn position speed acc).length = 7 * idn := by
  simp [offbuf, List.length_flatMap, length_posBytes, Nat.mul_comm]

/-- `SyncWritePosEx`. -/
def syncWritePosEx (scsEnd : Bool) (ids : Block) (position : ℕ → Int16)
    (speed : Option (ℕ → UInt16)) (acc : Option (ℕ → UInt8)) : Command :=
  .syncWrite ids 41 7 (offbuf scsEnd ids.elems.length position speed acc) (length_offbuf ..)

/-- **The positions of at most 31 servos fit in a packet.** -/
theorem syncWritePosEx_packet_iff (scsEnd : Bool) (ids : Block) (position : ℕ → Int16)
    (speed : Option (ℕ → UInt16)) (acc : Option (ℕ → UInt8)) :
    (∃ p : Packet, p.bytes = (syncWritePosEx scsEnd ids position speed acc).tx) ↔
      ids.elems.length ≤ 31 := by
  have hoffbuf := length_offbuf scsEnd ids.elems.length position speed acc
  have hblocks := Command.length_syncBlocks hoffbuf
  have hparams : (syncWritePosEx scsEnd ids position speed acc).params.length =
      8 * ids.elems.length + 2 := by
    rw [syncWritePosEx, Command.params, List.length_cons, List.length_cons]
    exact congrArg (· + 2) hblocks
  rw [Command.exists_packet_iff, hparams]
  omega

/-! ### The bus -/

/-- What a call of `WritePosEx` in core 1 writes. The `End` of `st` is 0, and a position is handed
over as an `s16`. -/
def WritePosEx.tx (w : WritePosEx) : List UInt8 :=
  (writePosEx false w.id w.position.toInt16 w.speed w.acc).tx

/-- What core 1 has written. -/
def State.bus (s : State) : List UInt8 := s.writes.flatMap fun w => w.val.tx

/-- The packet for a request. -/
def ServoT.packet (R : Rounding) (m : ServoT) : Packet where
  id := m.id
  inst := 0x03
  params := 41 :: posBytes false (servoPos R m.angle).toInt16 servoSpeed servoAcc
  length_lt := by rw [List.length_cons, length_posBytes]; decide

/-- The requests that were carried out. -/
def State.carried (s : State) : List ServoT := s.writes.filterMap fun w => s.accepted[w.tag]?

variable {R : Rounding}

theorem WritePosEx.tx_write (m : ServoT) : (m.write R).tx = (m.packet R).bytes :=
  Command.tx_eq _

/-- The position of an angle is sent as it is. -/
theorem signMagnitude_servoPos (angle : UInt8) :
    signMagnitude (servoPos R angle).toInt16 = servoPos R angle := by
  have hlt := angle.toNat_lt
  have hpos := servoPos_toNat R angle
  have hnot : ¬ (servoPos R angle).toInt16 < 0 := by
    have hint : (servoPos R angle).toInt16.toInt = (servoPos R angle).toNat :=
      BitVec.toInt_eq_toNat_of_lt (show 2 * (servoPos R angle).toNat < 2 ^ 16 by omega)
    rw [Int16.lt_iff_toInt_lt, hint, Int16.toInt_zero]
    omega
  rw [signMagnitude, if_neg hnot, UInt16.toUInt16_toInt16]

/-- **A packet tells the request.** -/
theorem ServoT.packet_injective : Function.Injective (ServoT.packet R) := by
  intro m m' heq
  have hid : m.id = m'.id := congrArg Packet.id heq
  have hparams := congrArg Packet.params heq
  simp only [packet, posBytes, signMagnitude_servoPos, List.cons.injEq, true_and, List.cons_append,
    List.nil_append, List.append_assoc] at hparams
  have hpos : host2Scs false (servoPos R m.angle) = host2Scs false (servoPos R m'.angle) :=
    (List.append_inj hparams rfl).1
  have hsame := host2Scs_injective false hpos
  have hangle : m.angle = m'.angle := by
    have hnat := congrArg UInt16.toNat hsame
    rw [servoPos_toNat, servoPos_toNat] at hnat
    apply UInt8.toNat_inj.mp
    omega
  obtain ⟨id, angle⟩ := m
  obtain ⟨id', angle'⟩ := m'
  obtain rfl : id = id' := hid
  obtain rfl : angle = angle' := hangle
  rfl

/-- The calls of `WritePosEx` are those for the requests that were carried out. -/
theorem Inv.carried_writes {s : State} (h : Inv R s) :
    s.carried.Sublist s.accepted ∧ s.writes.map Tagged.val = s.carried.map (ServoT.write R) := by
  obtain ⟨es, hes, hwrites⟩ := List.sublist_map_iff.mp h.writes_sublist
  have hval : (tagAll s.accepted).map Tagged.val = s.accepted := by
    simp [tagAll, Function.comp_def, List.zipIdx_map_fst]
  have hcarried : s.carried = es.map Tagged.val := by
    rw [State.carried, hwrites, List.filterMap_map, ← List.filterMap_eq_map]
    exact List.filterMap_congr fun e he => LatestQueue.mem_tagAll.mp (hes.subset he)
  refine ⟨?_, ?_⟩
  · rw [hcarried, ← hval]
    exact hes.map _
  · rw [hcarried, hwrites, List.map_map, List.map_map]
    rfl

/-- At rest the last request was carried out last. -/
theorem Inv.last_carried {s : State} (h : Inv R s) (hs : s.Quiescent) :
    s.carried.getLast? = s.accepted.getLast? := by
  have hlast := h.last_write hs
  rcases List.eq_nil_or_concat s.accepted with hnil | ⟨l, m, hl⟩
  · rw [hnil] at hlast ⊢
    have hwrites : s.writes = [] := List.getLast?_eq_none_iff.mp hlast
    rw [State.carried, hwrites]
    rfl
  · rw [hl, List.concat_eq_append, LatestQueue.tagAll_concat, writesFor, List.map_append,
      List.map_singleton, List.getLast?_concat] at hlast
    obtain ⟨ws, hws⟩ := List.getLast?_eq_some_iff.mp hlast
    rw [State.carried, hws, List.filterMap_append, hl, List.concat_eq_append, List.getLast?_concat]
    simp

/-- What the bus has to do with the requests. -/
structure BusCarries (R : Rounding) (s : State) : Prop where
  /-- It carries a packet for each of some accepted requests, in the order of the requests. -/
  sublist : s.carried.Sublist s.accepted
  bus : s.bus = (s.carried.map (ServoT.packet R)).flatMap Packet.bytes
  /-- No other packets have these bytes, and no other requests these packets. -/
  unique : ∀ ps : List Packet, ps.flatMap Packet.bytes = s.bus →
    ps = s.carried.map (ServoT.packet R)
  requests : ∀ ms : List ServoT,
    (ms.map (ServoT.packet R)).flatMap Packet.bytes = s.bus → ms = s.carried
  /-- At rest, the last packet is that of the last accepted request. -/
  last : s.Quiescent → s.carried.getLast? = s.accepted.getLast?

/-- **The bus carries accepted requests, and tells which**, for every interleaving. -/
theorem bus_carries_requests {as : List Act} {s : State}
    (h : Machine.run (step R) {} as = some s) : BusCarries R s := by
  have hinv := inv_run h
  obtain ⟨hsub, hwrites⟩ := hinv.carried_writes
  have hbus : s.bus = (s.carried.map (ServoT.packet R)).flatMap Packet.bytes := by
    have htx : s.bus = (s.writes.map Tagged.val).flatMap WritePosEx.tx :=
      (List.flatMap_map ..).symm
    rw [htx, hwrites, List.flatMap_map, List.flatMap_map]
    exact List.flatMap_congr fun m _ => WritePosEx.tx_write m
  have hunique (ps : List Packet) (hps : ps.flatMap Packet.bytes = s.bus) :
      ps = s.carried.map (ServoT.packet R) :=
    Packet.flatMap_bytes_injective (hps.trans hbus)
  refine ⟨hsub, hbus, hunique, fun ms hms => ?_, fun hs => ?_⟩
  · exact List.map_injective_iff.mpr ServoT.packet_injective (hunique _ hms)
  · exact hinv.last_carried hs

theorem bus_carries_requests_fourRequests :
    ∃ s, Machine.run (step .exact) {} fourRequests = some s ∧
      s.bus = [255, 255, 1, 10, 3, 41, 50, 0, 8, 0, 0, 220, 5, 173,
        255, 255, 2, 10, 3, 41, 50, 0, 12, 0, 0, 220, 5, 168] ∧ BusCarries .exact s := by
  have hrun : Machine.run (step .exact) {} fourRequests = some _ := rfl
  exact ⟨_, hrun, by decide +kernel, bus_carries_requests hrun⟩

end PicoUros.Servo
