import PicoUros.Imu.Shtp
import PicoUros.Lib.LittleEndian

/-!
# The functions that the sensor hub's messages reach

`rxAssemble` hands a complete message to the function that is registered for its channel. These
functions are in `lib/BNO08x_Pico_Library/sh2/src`: the parser of the advertisements that the hub
sends behind a reset (`shtp.c`), and the handlers of the reports (`sh2.c`). They call the two
functions of the driver, `sensorHandler` and `hal_callback`, of which the second ignores every
event but a reset.

The result `none` stands for a run in which the code reads or writes out of bounds or does not
return. A message is read where it was put together, in `inPayload`, also behind its end.

## Main definitions

* `Sh2`: `sh2_t`, with the instance of the transport protocol. `calls` and `notes` record the calls
  of the channel functions and of the functions of the driver.
* `processAdvertisement`, `sensorhubInputHdlr`, `sensorhubControlHdlr`, …: the functions.
* `rxAssemble`: a transfer arrives.
* `sh2Open`: the state behind the registrations in `shtp_open` and `sh2_open`.
-/

/-! ### Reading a message -/

namespace PicoUros

namespace Buffer

variable {n : ℕ} (b : Buffer n UInt8) (i : ℕ)

/-- `readu16`. -/
def readu16 : Option UInt16 := (b.read i 2).map fun l => UInt16.ofNat (leNat l)

/-- `readu32`. -/
def readu32 : Option UInt32 := (b.read i 4).map fun l => UInt32.ofNat (leNat l)

/-- The text at a position, if there is a terminator behind it. -/
def text : Option (List UInt8) :=
  if 0 ∈ b.elems.drop i then some (cstr (b.elems.drop i)) else none

/-- The text that `strcpy` copies into an array of `k` bytes. -/
def textIn (k : ℕ) : Option (List UInt8) :=
  (b.text i).bind fun s => if s.length < k then some s else none

end Buffer

end PicoUros

namespace PicoUros.Imu

/-- `sh2_SensorEvent_t`. -/
structure RawEvent where
  reportId : UInt8
  timestamp : UInt64
  report : List UInt8
  deriving DecidableEq

/-- A call of `sensorHandler`, or of `hal_callback` for `SH2_RESET`. -/
inductive HubNote where
  | sensor (e : RawEvent)
  | resetComplete
  deriving DecidableEq

/-- A call of the function of a channel. -/
structure Call where
  callback : Callback
  payload : List UInt8
  timestamp : UInt32
  deriving DecidableEq

/-- The state of `getProdIdOp`. -/
structure ProdIdOp where
  nextEntry : ℕ := 0
  expectedEntries : ℕ := 4
  deriving DecidableEq

/-- A product id is stored, if there is room for it. One part number has five of them. -/
def ProdIdOp.store (op : ProdIdOp) (resp : List UInt8) : ProdIdOp :=
  if op.nextEntry < op.expectedEntries then
    { nextEntry := op.nextEntry + 1
      expectedEntries :=
        if leNat ((resp.drop 4).take 4) = 10004095 then 5 else op.expectedEntries }
  else op

/-- The operation is completed if there is no room for another product id. -/
def ProdIdOp.completed (op : ProdIdOp) : Option ProdIdOp :=
  if op.expectedEntries ≤ op.nextEntry then none else some op

/-- `SH2_MAX_REPORT_IDS`. -/
def maxReportIds : ℕ := 64

/-- `SH2_MAX_SENSOR_EVENT_LEN`. -/
def maxSensorEventLen : ℕ := 16

/-- `sh2_t`, and the static variables of `touSTimestamp`. `op` is the operation in progress if it
has a receive method, and `sensorCallback` says whether `sensorHandler` is registered. -/
structure Sh2 where
  shtp : Shtp := {}
  resetComplete : Bool := false
  executableChan : UInt8 := 0
  controlChan : UInt8 := 0xFF
  report : Buffer maxReportIds (UInt8 × UInt8) := .fill maxReportIds (0, 0)
  op : Option ProdIdOp := none
  sensorCallback : Bool := false
  lastHostInt : UInt32 := 0
  rollovers : UInt32 := 0
  calls : List Call := []
  notes : List HubNote := []

namespace Sh2

variable (s : Sh2)

/-! ### The advertisement -/

/-- `sensorhubAdvertHdlr`. -/
def sensorhubAdvertHdlr (tag len : UInt8) (val : ℕ) : Option Sh2 :=
  match tag with
  | 0x80 => (s.shtp.inPayload.textIn val 17).map fun _ => s
  | 0x81 =>
    let reports := min (len.toNat / 2) maxReportIds
    (s.shtp.inPayload.read val (2 * reports)).bind fun l =>
      (s.report.write 0 ((List.range reports).map fun n =>
        (l.getD (2 * n) 0, l.getD (2 * n + 1) 0))).map fun r => { s with report := r }
  | 0 =>
    some { s with
      executableChan := s.shtp.chanNo (bytes "executable") (bytes "device")
      controlChan := s.shtp.chanNo (bytes "sensorhub") (bytes "control") }
  | _ => some s

/-- `shtpAdvertHdlr`. -/
def shtpAdvertHdlr (tag : UInt8) (val : ℕ) : Option Sh2 :=
  if tag = 0x80 then (s.shtp.inPayload.text val).map fun _ => s else some s

/-- `callAdvertHandler`: the first listener with the guid is called. -/
def callAdvertHandler (guid : UInt32) (tag len : UInt8) (val : ℕ) : Option Sh2 :=
  match s.shtp.appListener.find? fun l => l.guid.toUInt32 == guid with
  | none => some s
  | some l =>
    match l.callback with
    | .shtpAdvertHdlr => s.shtpAdvertHdlr tag val
    | .sensorhubAdvertHdlr => s.sensorhubAdvertHdlr tag len val
    | .executableAdvertHdlr => some s

/-- The variables of `processAdvertisement` that an entry leaves for the next ones. -/
structure Advert where
  guid : UInt32 := 0
  chanNo : UInt8 := 0

/-- The switch in the loop of `processAdvertisement`. -/
def advertTag (a : Advert) (tag : UInt8) (val : ℕ) : Option (Sh2 × Advert) :=
  let b := s.shtp.inPayload
  match tag with
  | 1 => do
    let s ← s.callAdvertHandler a.guid 0 0 0
    let guid ← b.readu32 val
    some ({ s with shtp := s.shtp.addApp guid }, { a with guid })
  | 2 => do
    let x := (← b.readu16 val) - 4
    some (if x < 256 then { s with shtp := { s.shtp with outMaxPayload := x.toNat } } else s, a)
  | 3 => (b.readu16 val).map fun _ => (s, a)
  | 4 => do
    let x := (← b.readu16 val) - 4
    some ({ s with shtp := { s.shtp with
      outMaxTransfer := if x < 256 then x.toNat else maxOut } }, a)
  | 5 => (b.readu16 val).map fun _ => (s, a)
  | 6 => (b.elems[val]?).map fun chanNo => (s, { a with chanNo })
  | 7 => (b.elems[val]?).map fun chanNo => (s, { a with chanNo })
  | 8 => (b.textIn val nameLen).map fun name =>
    ({ s with shtp := s.shtp.setAppName a.guid name }, a)
  | 9 => (b.textIn val nameLen).map fun name =>
    ({ s with shtp := s.shtp.addChannel a.chanNo a.guid name }, a)
  | _ => some (s, a)

/-- The loop of `processAdvertisement`, for a message of `len` bytes. -/
def advertLoop (len : ℕ) : ℕ → Sh2 → Advert → ℕ → Option (Sh2 × Advert)
  | 0, s, a, _ => some (s, a)
  | fuel + 1, s, a, cursor =>
    if cursor < len then do
      let tag ← s.shtp.inPayload.elems[cursor]?
      let n ← s.shtp.inPayload.elems[cursor + 1]?
      let (s, a) ← s.advertTag a tag (cursor + 2)
      let s ← s.callAdvertHandler a.guid tag n (cursor + 2)
      advertLoop len fuel s a (cursor + 2 + n.toNat)
    else some (s, a)

/-- `processAdvertisement`. -/
def processAdvertisement (len : ℕ) : Option Sh2 := do
  let s := { s with shtp := { s.shtp with advertPhase := .idle } }
  let (s, a) ← advertLoop len len s {} 1
  s.callAdvertHandler a.guid 0 0 0

/-- `shtpCmdListener`. -/
def shtpCmdListener (len : ℕ) : Option Sh2 :=
  if len = 0 then some s
  else (s.shtp.inPayload.elems[0]?).bind fun response =>
    if response = 0 then s.processAdvertisement len else some s

/-! ### Reports -/

/-- `getReportLen`. -/
def getReportLen (reportId : UInt8) : ℕ :=
  match s.report.elems.find? fun r => r.1 == reportId with
  | some r => r.2.toNat
  | none => 0

/-- `getProdIdRx`. -/
def getProdIdRx (op : ProdIdOp) (cursor : ℕ) : Option Sh2 :=
  (s.shtp.inPayload.elems[cursor]?).bind fun reportId =>
    if reportId ≠ 0xF8 then some s
    else
      (s.shtp.inPayload.read cursor 16).map fun resp => { s with op := (op.store resp).completed }

/-- `opRx`. -/
def opRx (cursor : ℕ) : Option Sh2 :=
  match s.op with
  | none => some s
  | some op => s.getProdIdRx op cursor

/-- `touSTimestamp`. The 32-bit sum wraps around. -/
def touSTimestamp (hostInt referenceDelta : UInt32) (delay : UInt16) : UInt64 × Sh2 :=
  let rollovers := if hostInt < s.lastHostInt then s.rollovers + 1 else s.rollovers
  (rollovers.toUInt64 <<< 32 + (hostInt + (referenceDelta + delay.toUInt32) * 100).toUInt64,
    { s with lastHostInt := hostInt, rollovers })

/-- The call of the sensor callback, if there is one. -/
def sensorEvent (e : RawEvent) : Sh2 :=
  if s.sensorCallback then { s with notes := s.notes ++ [.sensor e] } else s

/-- The copy of a report into an event, which has room for `SH2_MAX_SENSOR_EVENT_LEN` bytes. -/
def readEvent (cursor reportLen : ℕ) : Option (List UInt8) :=
  if reportLen ≤ maxSensorEventLen then s.shtp.inPayload.read cursor reportLen else none

/-- The delay field of a report. -/
def delay (b₂ b₃ : UInt8) : UInt16 := ((b₂ &&& 0xFC).toUInt16 <<< 6) + b₃.toUInt16

/-- The report at `cursor`, in the loop of `sensorhubInputHdlr`: the new state and reference. -/
def inputReport (timestamp : UInt32) (cursor : ℕ) (reportId : UInt8) (reportLen : ℕ)
    (referenceDelta : UInt32) : Option (Sh2 × UInt32) :=
  let b := s.shtp.inPayload
  match reportId with
  | 0xFB => (b.readu32 (cursor + 1)).map fun timebase => (s, -timebase)
  | 0xFA => (b.readu32 (cursor + 1)).map fun timebase => (s, referenceDelta + timebase)
  | 0xEF => (s.opRx cursor).map fun s => (s, referenceDelta)
  | _ => do
    let b₂ ← b.elems[cursor + 2]?
    let b₃ ← b.elems[cursor + 3]?
    let r := s.touSTimestamp timestamp referenceDelta (delay b₂ b₃)
    let report ← s.readEvent cursor reportLen
    some (r.2.sensorEvent ⟨reportId, r.1, report⟩, referenceDelta)

/-- The loop of `sensorhubInputHdlr`, for a message of `len` bytes. -/
def inputLoop (len : ℕ) (timestamp : UInt32) : ℕ → Sh2 → ℕ → UInt32 → Option Sh2
  | 0, s, _, _ => some s
  | fuel + 1, s, cursor, referenceDelta =>
    if cursor < len then
      (s.shtp.inPayload.elems[cursor]?).bind fun reportId =>
        -- An unknown report ends the message.
        if s.getReportLen reportId = 0 then some s
        else
          (s.inputReport timestamp cursor reportId (s.getReportLen reportId) referenceDelta).bind
            fun r => inputLoop len timestamp fuel r.1 (cursor + s.getReportLen reportId) r.2
    else some s

/-- `sensorhubInputHdlr`. -/
def sensorhubInputHdlr (len : ℕ) (timestamp : UInt32) : Option Sh2 :=
  inputLoop len timestamp len s 0 0

/-- The loop of `sensorhubInputGyroRvHdlr`. -/
def gyroRvLoop (len : ℕ) (timestamp : UInt32) (reportLen : ℕ) : ℕ → Sh2 → ℕ → Option Sh2
  | 0, s, _ => some s
  | fuel + 1, s, cursor =>
    if cursor < len then
      -- The cursor does not move if the report is unknown.
      if reportLen = 0 then none
      else
        (s.readEvent cursor reportLen).bind fun report =>
          gyroRvLoop len timestamp reportLen fuel
            (s.sensorEvent ⟨0x2A, timestamp.toUInt64, report⟩) (cursor + reportLen)
    else some s

/-- `sensorhubInputGyroRvHdlr`. -/
def sensorhubInputGyroRvHdlr (len : ℕ) (timestamp : UInt32) : Option Sh2 :=
  gyroRvLoop len timestamp (s.getReportLen 0x2A) len s 0

/-- What `sensorhubControlHdlr` itself reads of a report: two fields of the response to a command,
and the response to a request for a feature, which `hal_callback` ignores. -/
def readResponse (cursor : ℕ) (reportId : UInt8) : Option Sh2 :=
  let b := s.shtp.inPayload
  match reportId with
  | 0xF1 =>
    (b.elems[cursor + 2]?).bind fun command =>
      if command = 0x84 then (b.elems[cursor + 6]?).map fun _ => s else some s
  | 0xFC => (b.read cursor 17).map fun _ => s
  | _ => some s

/-- The loop of `sensorhubControlHdlr`. -/
def controlLoop (len : ℕ) : ℕ → Sh2 → ℕ → Option Sh2
  | 0, s, _ => some s
  | fuel + 1, s, cursor =>
    if cursor < len then
      (s.shtp.inPayload.elems[cursor]?).bind fun reportId =>
        if s.getReportLen reportId = 0 then some s
        else
          ((s.readResponse cursor reportId).bind fun t => t.opRx cursor).bind fun t =>
            controlLoop len fuel t (cursor + s.getReportLen reportId)
    else some s

/-- `sensorhubControlHdlr`. -/
def sensorhubControlHdlr (len : ℕ) : Option Sh2 := controlLoop len len s 0

/-- `executableDeviceHdlr`. -/
def executableDeviceHdlr (len : ℕ) : Sh2 :=
  if len = 1 ∧ s.shtp.inPayload.elems[0]? = some 1 then
    { s with resetComplete := true, notes := s.notes ++ [.resetComplete] }
  else s

/-! ### A transfer arrives -/

/-- The function of a channel is called with the message. -/
def call (cb : Callback) : Option Sh2 :=
  let t : Sh2 := { s with calls := s.calls ++ [⟨cb, s.shtp.message, s.shtp.inTimestamp⟩] }
  let len := s.shtp.inCursor
  match cb with
  | .shtpCmdListener => t.shtpCmdListener len
  | .executableDeviceHdlr => some (t.executableDeviceHdlr len)
  | .sensorhubControlHdlr => t.sensorhubControlHdlr len
  | .sensorhubInputNormalHdlr => t.sensorhubInputHdlr len s.shtp.inTimestamp
  | .sensorhubInputWakeHdlr => t.sensorhubInputHdlr len s.shtp.inTimestamp
  | .sensorhubInputGyroRvHdlr => t.sensorhubInputGyroRvHdlr len s.shtp.inTimestamp

/-- A message is handed over when it is complete, if there is a function for the channel. -/
def deliver (c : Fin 8) : Option Sh2 :=
  if s.shtp.inRemaining = 0 then
    match (s.shtp.chan c).callback with
    | none => some s
    | some cb => s.call cb
  else some s

/-- The end of `rxAssemble`: the transfer's part of the message is appended. -/
def receive (h : Header) (c : Fin 8) (part : List UInt8) (t : UInt32) : Option Sh2 :=
  ((s.shtp.startAssembly c t).append part (h.payloadLen - hdrLen - part.length)).bind fun shtp =>
    (deliver { s with shtp } c).map fun s =>
      { s with shtp := s.shtp.setNextInSeq c (h.seq + 1) }

/-- The channel of a transfer, if it is valid. -/
def channel (nextChanListener : ℕ) (h : Header) : Option (Fin 8) :=
  if hc : h.chan.toNat < 8 then
    if nextChanListener ≤ h.chan.toNat then none else some ⟨h.chan.toNat, hc⟩
  else none

/-- `rxAssemble`. -/
def rxAssemble (transfer : List UInt8) (t : UInt32) : Option Sh2 :=
  match header transfer with
  | none => some s
  | some h =>
    if h.payloadLen < hdrLen then some s
    else
      match channel s.shtp.chanListener.length h with
      | none => some s
      | some c =>
        let s := { s with shtp := s.shtp.discard h c }
        if s.shtp.inRemaining = 0 ∧ maxIn < h.payloadLen then some s
        else s.receive h c (body h transfer) t

end Sh2

/-! ### The start -/

/-- `shtp_open`, up to the registration of its own functions. -/
def shtpInit : Shtp := (({} : Shtp).addApp 0).addChannel 0 0 (bytes "command")

/-- `shtp_open`. -/
def shtpOpen : Shtp :=
  { (shtpInit.listenAdvert ⟨0, .shtpAdvertHdlr⟩).addChanListener
      ⟨0, bytes "command", .shtpCmdListener⟩ with
    advertPhase := .requested }

/-- The calls of `shtp_listenChan` in `sh2_open` for the application `sensorhub`. -/
def sensorhubListeners : List ChanListener :=
  [⟨2, bytes "control", .sensorhubControlHdlr⟩,
    ⟨2, bytes "inputNormal", .sensorhubInputNormalHdlr⟩,
    ⟨2, bytes "inputWake", .sensorhubInputWakeHdlr⟩,
    ⟨2, bytes "inputGyroRv", .sensorhubInputGyroRvHdlr⟩]

/-- `sh2_open`, up to the registration of the functions for the application `executable`. -/
def sh2Listen : Shtp :=
  sensorhubListeners.foldl Shtp.addChanListener (shtpOpen.listenAdvert ⟨2, .sensorhubAdvertHdlr⟩)

/-- The registrations in `sh2_open`. -/
def sh2Open : Sh2 :=
  { shtp := (sh2Listen.listenAdvert ⟨1, .executableAdvertHdlr⟩).addChanListener
      ⟨1, bytes "device", .executableDeviceHdlr⟩ }

/-- The listeners, in the order of their registration. -/
def listeners : List ChanListener :=
  ⟨0, bytes "command", .shtpCmdListener⟩ :: sensorhubListeners ++
    [⟨1, bytes "device", .executableDeviceHdlr⟩]

/-- The listeners for advertisements. -/
def advertListeners : List AppListener :=
  [⟨0, .shtpAdvertHdlr⟩, ⟨2, .sensorhubAdvertHdlr⟩, ⟨1, .executableAdvertHdlr⟩]

theorem appListener_sh2Open : sh2Open.shtp.appListener = advertListeners := rfl

theorem chanListener_shtpOpen :
    shtpOpen.chanListener = [⟨0, bytes "command", .shtpCmdListener⟩] := by
  have hinit : (shtpInit.listenAdvert ⟨0, .shtpAdvertHdlr⟩).chanListener = [] := by
    rw [Shtp.chanListener_listenAdvert, shtpInit, Shtp.chanListener_addChannel,
      Shtp.chanListener_addApp]
  have hadd := Shtp.chanListener_addChanListener (l := ⟨0, bytes "command", .shtpCmdListener⟩)
    (show (shtpInit.listenAdvert ⟨0, .shtpAdvertHdlr⟩).chanListener.length < maxChans by
      rw [hinit]; decide)
  rw [hinit] at hadd
  exact hadd

theorem chanListener_sh2Listen :
    sh2Listen.chanListener = ⟨0, bytes "command", .shtpCmdListener⟩ :: sensorhubListeners := by
  have hopen := (Shtp.chanListener_listenAdvert shtpOpen ⟨2, .sensorhubAdvertHdlr⟩).trans
    chanListener_shtpOpen
  rw [sh2Listen, Shtp.chanListener_foldl (by rw [hopen]; decide), hopen]
  rfl

theorem length_sh2Listen_lt :
    (sh2Listen.listenAdvert ⟨1, .executableAdvertHdlr⟩).chanListener.length < maxChans := by
  rw [Shtp.chanListener_listenAdvert, chanListener_sh2Listen]
  decide

theorem chanListener_sh2Open : sh2Open.shtp.chanListener = listeners := by
  rw [sh2Open, Shtp.chanListener_addChanListener length_sh2Listen_lt,
    Shtp.chanListener_listenAdvert, chanListener_sh2Listen]
  rfl

theorem routed_sh2Open : sh2Open.shtp.Routed := by
  simp only [sh2Open]
  exact Shtp.routed_addChanListener length_sh2Listen_lt

/-! ### What the functions leave alone -/

/-- The message under construction, the listeners and the record of the calls are the same in `s`
and in `t`. The channels are routed in `t` if they are in `s`, the transfers still fit in the buffer
for them, and no new advertisement is needed. -/
structure Sh2.Keeps (s t : Sh2) : Prop where
  inRemaining : t.shtp.inRemaining = s.shtp.inRemaining
  inChan : t.shtp.inChan = s.shtp.inChan
  inPayload : t.shtp.inPayload = s.shtp.inPayload
  inCursor : t.shtp.inCursor = s.shtp.inCursor
  inTimestamp : t.shtp.inTimestamp = s.shtp.inTimestamp
  chanListener : t.shtp.chanListener = s.shtp.chanListener
  appListener : t.shtp.appListener = s.shtp.appListener
  calls : t.calls = s.calls
  routed : s.shtp.Routed → t.shtp.Routed
  outMaxTransfer : s.shtp.outMaxTransfer ≤ maxOut → t.shtp.outMaxTransfer ≤ maxOut
  advertPhase : s.shtp.advertPhase ≠ .needed → t.shtp.advertPhase ≠ .needed

namespace Sh2

variable {s t u : Sh2}

theorem Keeps.refl (s : Sh2) : Keeps s s := ⟨rfl, rfl, rfl, rfl, rfl, rfl, rfl, rfl, id, id, id⟩

theorem Keeps.trans (h : Keeps s t) (h' : Keeps t u) : Keeps s u where
  inRemaining := h'.inRemaining.trans h.inRemaining
  inChan := h'.inChan.trans h.inChan
  inPayload := h'.inPayload.trans h.inPayload
  inCursor := h'.inCursor.trans h.inCursor
  inTimestamp := h'.inTimestamp.trans h.inTimestamp
  chanListener := h'.chanListener.trans h.chanListener
  appListener := h'.appListener.trans h.appListener
  calls := h'.calls.trans h.calls
  routed := h'.routed ∘ h.routed
  outMaxTransfer := h'.outMaxTransfer ∘ h.outMaxTransfer
  advertPhase := h'.advertPhase ∘ h.advertPhase

/-- A function that does not reach the transport protocol. -/
theorem Keeps.of_shtp (hshtp : t.shtp = s.shtp) (hcalls : t.calls = s.calls) : Keeps s t := by
  refine ⟨?_, ?_, ?_, ?_, ?_, ?_, ?_, hcalls, ?_, ?_, ?_⟩ <;> rw [hshtp]
  exacts [id, id, id]

/-- The operations on the tables of the transport protocol. -/
theorem keeps_tables (s : Sh2) (guid : UInt32) (chanNo : UInt8) (name : List UInt8) :
    Keeps s { s with shtp := s.shtp.addApp guid } ∧
      Keeps s { s with shtp := s.shtp.setAppName guid name } ∧
      Keeps s { s with shtp := s.shtp.addChannel chanNo guid name } := by
  refine ⟨?_, ⟨rfl, rfl, rfl, rfl, rfl, rfl, rfl, rfl, id, id, id⟩, ?_⟩
  · have hrouted (h : s.shtp.Routed) := h.addApp guid
    unfold Shtp.addApp at hrouted ⊢
    split_ifs at hrouted ⊢ <;> exact ⟨rfl, rfl, rfl, rfl, rfl, rfl, rfl, rfl, hrouted, id, id⟩
  · have hrouted (h : s.shtp.Routed) := h.addChannel chanNo guid name
    unfold Shtp.addChannel at hrouted ⊢
    split_ifs at hrouted ⊢ <;> exact ⟨rfl, rfl, rfl, rfl, rfl, rfl, rfl, rfl, hrouted, id, id⟩

theorem callAdvertHandler_keeps {guid : UInt32} {tag len : UInt8} {val : ℕ}
    (h : s.callAdvertHandler guid tag len val = some t) : Keeps s t := by
  unfold callAdvertHandler at h
  split at h
  · exact Option.some.inj h ▸ .refl s
  · split at h
    · unfold shtpAdvertHdlr at h
      split_ifs at h
      · obtain ⟨_, -, rfl⟩ := Option.map_eq_some_iff.mp h
        exact .refl s
      · exact Option.some.inj h ▸ .refl s
    · unfold sensorhubAdvertHdlr at h
      split at h
      · obtain ⟨_, -, rfl⟩ := Option.map_eq_some_iff.mp h
        exact .refl s
      · obtain ⟨l, -, h⟩ := Option.bind_eq_some_iff.mp h
        obtain ⟨r, -, rfl⟩ := Option.map_eq_some_iff.mp h
        exact .of_shtp rfl rfl
      · exact Option.some.inj h ▸ .of_shtp rfl rfl
      · exact Option.some.inj h ▸ .refl s
    · exact Option.some.inj h ▸ .refl s

theorem advertTag_keeps {a a' : Advert} {tag : UInt8} {val : ℕ}
    (h : s.advertTag a tag val = some (t, a')) : Keeps s t := by
  unfold advertTag at h
  split at h
  · obtain ⟨u, hu, h⟩ := Option.bind_eq_some_iff.mp h
    obtain ⟨guid, -, h⟩ := Option.bind_eq_some_iff.mp h
    cases h
    exact (callAdvertHandler_keeps hu).trans (keeps_tables u guid 0 []).1
  · obtain ⟨x, -, h⟩ := Option.bind_eq_some_iff.mp h
    cases h
    split_ifs <;> exact ⟨rfl, rfl, rfl, rfl, rfl, rfl, rfl, rfl, id, id, id⟩
  · obtain ⟨x, -, h⟩ := Option.map_eq_some_iff.mp h
    cases h
    exact .refl s
  · obtain ⟨x, -, h⟩ := Option.bind_eq_some_iff.mp h
    cases h
    refine ⟨rfl, rfl, rfl, rfl, rfl, rfl, rfl, rfl, id, fun _ => ?_, id⟩
    simp only
    split_ifs with hx
    exacts [(UInt16.lt_iff_toNat_lt.mp hx).le, le_rfl]
  · obtain ⟨x, -, h⟩ := Option.map_eq_some_iff.mp h
    cases h
    exact .refl s
  · obtain ⟨x, -, h⟩ := Option.map_eq_some_iff.mp h
    cases h
    exact .refl s
  · obtain ⟨x, -, h⟩ := Option.map_eq_some_iff.mp h
    cases h
    exact .refl s
  · obtain ⟨name, -, h⟩ := Option.map_eq_some_iff.mp h
    cases h
    exact (keeps_tables s a.guid 0 name).2.1
  · obtain ⟨name, -, h⟩ := Option.map_eq_some_iff.mp h
    cases h
    exact (keeps_tables s a.guid a.chanNo name).2.2
  · cases h
    exact .refl s

theorem advertLoop_keeps {len fuel cursor : ℕ} {a a' : Advert}
    (h : advertLoop len fuel s a cursor = some (t, a')) : Keeps s t := by
  induction fuel generalizing s a cursor with
  | zero =>
    cases h
    exact .refl _
  | succ fuel ih =>
    unfold advertLoop at h
    split_ifs at h
    · obtain ⟨tag, -, h⟩ := Option.bind_eq_some_iff.mp h
      obtain ⟨n, -, h⟩ := Option.bind_eq_some_iff.mp h
      obtain ⟨⟨u, b⟩, hu, h⟩ := Option.bind_eq_some_iff.mp h
      obtain ⟨v, hv, h⟩ := Option.bind_eq_some_iff.mp h
      exact ((advertTag_keeps hu).trans (callAdvertHandler_keeps hv)).trans (ih h)
    · cases h
      exact .refl _

theorem shtpCmdListener_keeps {len : ℕ} (h : s.shtpCmdListener len = some t) : Keeps s t := by
  unfold shtpCmdListener at h
  split_ifs at h
  · exact Option.some.inj h ▸ .refl s
  · obtain ⟨response, -, h⟩ := Option.bind_eq_some_iff.mp h
    split_ifs at h
    · obtain ⟨⟨u, a⟩, hu, h⟩ := Option.bind_eq_some_iff.mp h
      have hphase : Keeps s { s with shtp := { s.shtp with advertPhase := .idle } } :=
        ⟨rfl, rfl, rfl, rfl, rfl, rfl, rfl, rfl, id, id, fun _ => AdvertPhase.noConfusion⟩
      exact (hphase.trans (advertLoop_keeps hu)).trans (callAdvertHandler_keeps h)
    · exact Option.some.inj h ▸ .refl s

/-- Nothing of the transport protocol, of the record of the calls and of the report lengths is
changed: a handler of reports. -/
structure Handles (s t : Sh2) : Prop where
  shtp : t.shtp = s.shtp
  calls : t.calls = s.calls
  report : t.report = s.report

theorem Handles.refl (s : Sh2) : Handles s s := ⟨rfl, rfl, rfl⟩

theorem Handles.trans (h : Handles s t) (h' : Handles t u) : Handles s u :=
  ⟨h'.shtp.trans h.shtp, h'.calls.trans h.calls, h'.report.trans h.report⟩

theorem opRx_handles {cursor : ℕ} (h : s.opRx cursor = some t) : Handles s t := by
  unfold opRx at h
  split at h
  · exact Option.some.inj h ▸ .refl s
  · unfold getProdIdRx at h
    obtain ⟨reportId, -, h⟩ := Option.bind_eq_some_iff.mp h
    split_ifs at h
    · exact Option.some.inj h ▸ .refl s
    · obtain ⟨resp, -, rfl⟩ := Option.map_eq_some_iff.mp h
      exact ⟨rfl, rfl, rfl⟩

theorem sensorEvent_handles (s : Sh2) (e : RawEvent) : Handles s (s.sensorEvent e) := by
  unfold sensorEvent
  split_ifs
  exacts [⟨rfl, rfl, rfl⟩, .refl s]

theorem inputReport_handles {timestamp delta delta' : UInt32} {cursor n : ℕ} {id : UInt8}
    (h : s.inputReport timestamp cursor id n delta = some (t, delta')) : Handles s t := by
  unfold inputReport at h
  split at h
  · obtain ⟨x, -, h⟩ := Option.map_eq_some_iff.mp h
    cases h
    exact .refl _
  · obtain ⟨x, -, h⟩ := Option.map_eq_some_iff.mp h
    cases h
    exact .refl _
  · obtain ⟨u, hu, h⟩ := Option.map_eq_some_iff.mp h
    cases h
    exact opRx_handles hu
  · obtain ⟨b₂, -, h⟩ := Option.bind_eq_some_iff.mp h
    obtain ⟨b₃, -, h⟩ := Option.bind_eq_some_iff.mp h
    obtain ⟨report, -, h⟩ := Option.bind_eq_some_iff.mp h
    cases h
    have htime : Handles s (s.touSTimestamp timestamp delta (delay b₂ b₃)).2 := ⟨rfl, rfl, rfl⟩
    exact htime.trans (sensorEvent_handles _ _)

theorem inputLoop_handles {len fuel cursor : ℕ} {timestamp delta : UInt32}
    (h : inputLoop len timestamp fuel s cursor delta = some t) : Handles s t := by
  induction fuel generalizing s cursor delta with
  | zero => exact Option.some.inj h ▸ .refl s
  | succ fuel ih =>
    unfold inputLoop at h
    split_ifs at h
    · obtain ⟨id, -, h⟩ := Option.bind_eq_some_iff.mp h
      split_ifs at h
      · exact Option.some.inj h ▸ .refl s
      · obtain ⟨⟨u, d⟩, hu, h⟩ := Option.bind_eq_some_iff.mp h
        exact (inputReport_handles hu).trans (ih h)
    · exact Option.some.inj h ▸ .refl s

theorem gyroRvLoop_handles {len n fuel cursor : ℕ} {timestamp : UInt32}
    (h : gyroRvLoop len timestamp n fuel s cursor = some t) : Handles s t := by
  induction fuel generalizing s cursor with
  | zero => exact Option.some.inj h ▸ .refl s
  | succ fuel ih =>
    unfold gyroRvLoop at h
    split_ifs at h
    · obtain ⟨report, -, h⟩ := Option.bind_eq_some_iff.mp h
      exact (sensorEvent_handles s _).trans (ih h)
    · exact Option.some.inj h ▸ .refl s

theorem readResponse_eq {cursor : ℕ} {id : UInt8} (h : s.readResponse cursor id = some t) :
    t = s := by
  unfold readResponse at h
  split at h
  · obtain ⟨command, -, h⟩ := Option.bind_eq_some_iff.mp h
    split_ifs at h
    · obtain ⟨x, -, rfl⟩ := Option.map_eq_some_iff.mp h
      rfl
    · exact (Option.some.inj h).symm
  · obtain ⟨x, -, rfl⟩ := Option.map_eq_some_iff.mp h
    rfl
  · exact (Option.some.inj h).symm

theorem controlLoop_handles {len fuel cursor : ℕ} (h : controlLoop len fuel s cursor = some t) :
    Handles s t := by
  induction fuel generalizing s cursor with
  | zero => exact Option.some.inj h ▸ .refl s
  | succ fuel ih =>
    unfold controlLoop at h
    split_ifs at h
    · obtain ⟨id, -, h⟩ := Option.bind_eq_some_iff.mp h
      split_ifs at h
      · exact Option.some.inj h ▸ .refl s
      · obtain ⟨u, hu, h⟩ := Option.bind_eq_some_iff.mp h
        obtain ⟨v, hv, hu⟩ := Option.bind_eq_some_iff.mp hu
        exact (readResponse_eq hv ▸ opRx_handles hu).trans (ih h)
    · exact Option.some.inj h ▸ .refl s

/-- The functions of the other channels do not reach the transport protocol. -/
theorem call_handles {cb : Callback} (hcb : cb ≠ .shtpCmdListener) (h : s.call cb = some t) :
    Handles { s with calls := s.calls ++ [⟨cb, s.shtp.message, s.shtp.inTimestamp⟩] } t := by
  cases cb with
  | shtpCmdListener => exact absurd rfl hcb
  | executableDeviceHdlr =>
    obtain rfl := Option.some.inj h
    unfold executableDeviceHdlr
    split_ifs
    exacts [⟨rfl, rfl, rfl⟩, .refl _]
  | sensorhubControlHdlr => exact controlLoop_handles h
  | sensorhubInputNormalHdlr => exact inputLoop_handles h
  | sensorhubInputWakeHdlr => exact inputLoop_handles h
  | sensorhubInputGyroRvHdlr => exact gyroRvLoop_handles h

theorem call_shtp {cb : Callback} (hcb : cb ≠ .shtpCmdListener) (h : s.call cb = some t) :
    t.shtp = s.shtp :=
  (call_handles hcb h).shtp

/-- **The function of a channel leaves the message alone**: a call adds itself to the record, and
keeps the rest. -/
theorem call_keeps {cb : Callback} (h : s.call cb = some t) :
    Keeps { s with calls := s.calls ++ [⟨cb, s.shtp.message, s.shtp.inTimestamp⟩] } t := by
  by_cases hcb : cb = .shtpCmdListener
  · subst hcb
    exact shtpCmdListener_keeps h
  · have hhandles := call_handles hcb h
    exact .of_shtp hhandles.shtp hhandles.calls

end Sh2

end PicoUros.Imu
