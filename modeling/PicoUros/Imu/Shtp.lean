import PicoUros.Lib.Buffer
import PicoUros.Lib.CString

/-!
# The transport protocol of the sensor hub

The sensor hub and the `sh2` library exchange messages over the channels of the SHTP protocol
(`lib/BNO08x_Pico_Library/sh2/src/shtp.c`). A transfer is a header of four bytes and a part of a
message. The header has the length of what is left of the message, the header included, a flag for
a continuation, the channel, and a sequence number that the channel counts.

This module has the instance data of the protocol, the tables that lead from a channel to the
function registered for it, and the steps by which `rxAssemble` puts a message together. The
functions that call back into the `sh2` library are in `PicoUros.Imu.Sh2`. The statistics, the
cookies and the `wake` flags are left out: no decision depends on them.

## Main definitions

* `Shtp`: `shtp_t`. `inPayload` is a `Buffer`: a copy past its end is refused.
* `Header`, `header`: the header of a transfer.
* `updateCallbacks`, `addChannel`, `addChanListener`, `addApp`, `setAppName`, `chanNo`: the tables.
* `Shtp.continues`, `discard`, `startAssembly`, `append`: the steps of `rxAssemble`.
* `Shtp.Routed`: every channel has the function that is registered for it.

## Main results

* `Shtp.Routed.addChannel`, `Shtp.Routed.addApp`, …: every operation on the tables keeps the
  channels routed.
-/

namespace PicoUros.Imu

/-- The functions registered for channels. -/
inductive Callback where
  | shtpCmdListener
  | executableDeviceHdlr
  | sensorhubControlHdlr
  | sensorhubInputNormalHdlr
  | sensorhubInputWakeHdlr
  | sensorhubInputGyroRvHdlr
  deriving DecidableEq

/-- The functions registered for advertisements. -/
inductive AdvertCallback where
  | shtpAdvertHdlr
  | sensorhubAdvertHdlr
  | executableAdvertHdlr
  deriving DecidableEq

/-- `advert_phase_t`. -/
inductive AdvertPhase where
  | needed
  | requested
  | idle
  deriving DecidableEq

/-- `shtp_App_t`. -/
structure App where
  guid : UInt32
  appName : List UInt8

/-- `shtp_AppListener_t`. -/
structure AppListener where
  guid : UInt16
  callback : AdvertCallback

/-- `shtp_ChanListener_t`. -/
structure ChanListener where
  guid : UInt16
  chanName : List UInt8
  callback : Callback

/-- `shtp_Channel_t`. A name is the text in front of its terminator. -/
structure Channel where
  nextOutSeq : UInt8 := 0
  nextInSeq : UInt8 := 0
  guid : UInt32 := 0
  chanName : List UInt8 := []
  callback : Option Callback := none

/-- `SHTP_HDR_LEN`. -/
def hdrLen : ℕ := 4

/-- `SH2_HAL_MAX_TRANSFER_OUT` and `SH2_HAL_MAX_PAYLOAD_OUT`. -/
def maxOut : ℕ := 256

/-- `SH2_HAL_MAX_TRANSFER_IN` and `SH2_HAL_MAX_PAYLOAD_IN`. -/
def maxIn : ℕ := 384

/-- `SH2_MAX_APPS`. -/
def maxApps : ℕ := 5

/-- `SH2_MAX_CHANS`. -/
def maxChans : ℕ := 8

/-- `SHTP_CHAN_NAME_LEN` and `SHTP_APP_NAME_LEN`. -/
def nameLen : ℕ := 32

/-- The guid of a channel entry that is not used. -/
def unusedGuid : UInt32 := 0xFFFFFFFF

/-- `shtp_t`. The lists hold the entries in use of the tables. -/
structure Shtp where
  outMaxPayload : ℕ := maxOut
  outMaxTransfer : ℕ := maxOut
  inRemaining : ℕ := 0
  inChan : Fin 8 := 0
  inPayload : Buffer maxIn UInt8 := .fill maxIn 0
  inCursor : ℕ := 0
  inTimestamp : UInt32 := 0
  advertPhase : AdvertPhase := .needed
  app : List App := []
  appListener : List AppListener := []
  chan : Fin 8 → Channel := fun _ => {}
  chanListener : List ChanListener := []

namespace Shtp

/-! ### The tables -/

/-- The function registered for a channel: that of the first listener with its guid and name. -/
def listenerOf (ls : List ChanListener) (c : Channel) : Option Callback :=
  if c.guid = unusedGuid then none
  else
    (ls.find? fun l => l.guid.toUInt32 == c.guid && l.chanName == c.chanName).map
      ChanListener.callback

/-- `updateCallbacks`. -/
def updateCallbacks (s : Shtp) : Shtp :=
  { s with chan := fun c => { s.chan c with callback := listenerOf s.chanListener (s.chan c) } }

/-- `addAdvertListener`. -/
def addAdvertListener (s : Shtp) (l : AppListener) : Shtp :=
  if maxApps ≤ s.appListener.length then s else { s with appListener := s.appListener ++ [l] }

/-- `shtp_listenAdvert`. -/
def listenAdvert (s : Shtp) (l : AppListener) : Shtp :=
  let s := s.addAdvertListener l
  if s.advertPhase = .idle then { s with advertPhase := .needed } else s

/-- `addChanListener`, called by `shtp_listenChan` with a name that is not empty. -/
def addChanListener (s : Shtp) (l : ChanListener) : Shtp :=
  if maxChans ≤ s.chanListener.length then s
  else updateCallbacks { s with chanListener := s.chanListener ++ [l] }

/-- `addApp`. -/
def addApp (s : Shtp) (guid : UInt32) : Shtp :=
  if s.app.any fun a => a.guid == guid then s
  else if maxApps ≤ s.app.length then s
  else updateCallbacks { s with app := s.app ++ [⟨guid, []⟩] }

/-- The loop of `setAppName`: the first entry with the guid gets the name. -/
def rename (guid : UInt32) (name : List UInt8) : List App → List App
  | [] => []
  | a :: as => if a.guid = guid then ⟨a.guid, name⟩ :: as else a :: rename guid name as

/-- `setAppName`. -/
def setAppName (s : Shtp) (guid : UInt32) (name : List UInt8) : Shtp :=
  { s with app := rename guid name s.app }

/-- `addChannel`. -/
def addChannel (s : Shtp) (chanNo : UInt8) (guid : UInt32) (name : List UInt8) : Shtp :=
  if h : chanNo.toNat < 8 then
    updateCallbacks { s with
      chan := Function.update s.chan ⟨chanNo.toNat, h⟩ { guid, chanName := name } }
  else s

/-- `shtp_chanNo`. -/
def chanNo (s : Shtp) (appName chanName : List UInt8) : UInt8 :=
  match s.app.find? fun a => a.appName == appName with
  | none => 0xFF
  | some a =>
    if a.guid = unusedGuid then 0xFF
    else
      match (List.finRange 8).find? fun c =>
        (s.chan c).chanName == chanName && (s.chan c).guid == a.guid with
      | some c => UInt8.ofNat c
      | none => 0xFF

/-- The number that a channel expects next. -/
def setNextInSeq (s : Shtp) (c : Fin 8) (seq : UInt8) : Shtp :=
  { s with chan := Function.update s.chan c { s.chan c with nextInSeq := seq } }

/-! ### Routing -/

/-- Every channel has the function that is registered for it. -/
def Routed (s : Shtp) : Prop := ∀ c, (s.chan c).callback = listenerOf s.chanListener (s.chan c)

theorem routed_updateCallbacks (s : Shtp) : s.updateCallbacks.Routed := fun _ => rfl

variable {s : Shtp}

theorem Routed.addChannel (h : s.Routed) (chanNo : UInt8) (guid : UInt32) (name : List UInt8) :
    (s.addChannel chanNo guid name).Routed := by
  unfold Shtp.addChannel
  split_ifs
  exacts [routed_updateCallbacks _, h]

theorem routed_addChanListener {l : ChanListener} (h : s.chanListener.length < maxChans) :
    (s.addChanListener l).Routed := by
  rw [Shtp.addChanListener, if_neg h.not_ge]
  exact routed_updateCallbacks _

theorem chanListener_addChanListener {l : ChanListener} (h : s.chanListener.length < maxChans) :
    (s.addChanListener l).chanListener = s.chanListener ++ [l] := by
  rw [Shtp.addChanListener, if_neg h.not_ge]
  rfl

/-- The listeners of a list are registered in their order, if there is room for them. -/
theorem chanListener_foldl {ls : List ChanListener}
    (h : s.chanListener.length + ls.length ≤ maxChans) :
    (ls.foldl Shtp.addChanListener s).chanListener = s.chanListener ++ ls := by
  induction ls generalizing s with
  | nil => exact (List.append_nil _).symm
  | cons l ls ih =>
    rw [List.length_cons] at h
    have hl :=
      chanListener_addChanListener (l := l) (show s.chanListener.length < maxChans by omega)
    rw [List.foldl_cons, ih (by rw [hl, List.length_append, List.length_singleton]; omega), hl,
      List.append_assoc, List.singleton_append]

theorem chanListener_addApp (s : Shtp) (guid : UInt32) :
    (s.addApp guid).chanListener = s.chanListener := by
  unfold Shtp.addApp
  split_ifs <;> rfl

theorem chanListener_addChannel (s : Shtp) (chanNo : UInt8) (guid : UInt32) (name : List UInt8) :
    (s.addChannel chanNo guid name).chanListener = s.chanListener := by
  unfold Shtp.addChannel
  split_ifs <;> rfl

theorem chanListener_listenAdvert (s : Shtp) (l : AppListener) :
    (s.listenAdvert l).chanListener = s.chanListener := by
  unfold Shtp.listenAdvert Shtp.addAdvertListener
  simp only
  split_ifs <;> rfl

theorem Routed.addApp (h : s.Routed) (guid : UInt32) : (s.addApp guid).Routed := by
  unfold Shtp.addApp
  split_ifs
  exacts [h, h, routed_updateCallbacks _]

theorem setNextInSeq_chan (s : Shtp) (c d : Fin 8) (seq : UInt8) :
    (s.setNextInSeq c seq).chan d =
      if d = c then { s.chan c with nextInSeq := seq } else s.chan d :=
  Function.update_apply ..

theorem Routed.setNextInSeq (h : s.Routed) (c : Fin 8) (seq : UInt8) :
    (s.setNextInSeq c seq).Routed := by
  intro d
  rw [setNextInSeq_chan]
  split_ifs with hd
  · subst hd
    exact h d
  · exact h d

/-- The guid and the name of a channel. -/
def named (s : Shtp) (c : Fin 8) : UInt32 × List UInt8 := ((s.chan c).guid, (s.chan c).chanName)

/-- The channels are named in the same way, and the listeners for advertisements are the same. -/
structure Agrees (s t : Shtp) : Prop where
  named : t.named = s.named
  appListener : t.appListener = s.appListener

theorem Agrees.refl (s : Shtp) : Agrees s s := ⟨rfl, rfl⟩

theorem Agrees.trans {s t u : Shtp} (h : Agrees s t) (h' : Agrees t u) : Agrees s u :=
  ⟨h'.named.trans h.named, h'.appListener.trans h.appListener⟩

theorem Agrees.of_chan {s t : Shtp} (hchan : t.chan = s.chan)
    (happ : t.appListener = s.appListener) : Agrees s t :=
  ⟨by funext c; rw [Shtp.named, Shtp.named, hchan], happ⟩

theorem agrees_setNextInSeq (s : Shtp) (c : Fin 8) (seq : UInt8) :
    Agrees s (s.setNextInSeq c seq) := by
  refine ⟨?_, rfl⟩
  funext d
  simp only [Shtp.named, setNextInSeq_chan]
  split_ifs with hd
  exacts [by rw [hd], rfl]

end Shtp

/-! ### A transfer -/

/-- The header of a transfer. `payloadLen` is the length field without the flag. -/
structure Header where
  payloadLen : ℕ
  continuation : Bool
  chan : UInt8
  seq : UInt8
  deriving DecidableEq

/-- The header of a transfer that has one. -/
def header : List UInt8 → Option Header
  | b₀ :: b₁ :: chan :: seq :: _ =>
    some ⟨(b₀.toNat + b₁.toNat * 256) % 0x8000, decide (0x80 ≤ b₁.toNat), chan, seq⟩
  | _ => none

/-- The bytes of a header. -/
def Header.encode (h : Header) : List UInt8 :=
  [UInt8.ofNat h.payloadLen, UInt8.ofNat (h.payloadLen / 256 + if h.continuation then 0x80 else 0),
    h.chan, h.seq]

/-- The part of the message in a transfer: what is behind the header, up to the length that the
header gives. -/
def body (h : Header) (transfer : List UInt8) : List UInt8 :=
  (transfer.take h.payloadLen).drop hdrLen

namespace Shtp

/-- The transfer fits with the message under construction. -/
def continues (s : Shtp) (h : Header) (c : Fin 8) : Bool :=
  s.inRemaining != 0 && h.continuation && decide (c = s.inChan) && h.seq == (s.chan c).nextInSeq

/-- The message under construction is discarded if the transfer does not fit with it. -/
def discard (s : Shtp) (h : Header) (c : Fin 8) : Shtp :=
  if s.continues h c then s else { s with inRemaining := 0 }

/-- A new message is started if there is none. -/
def startAssembly (s : Shtp) (c : Fin 8) (t : UInt32) : Shtp :=
  if s.inRemaining = 0 then { s with inTimestamp := t, inCursor := 0, inChan := c } else s

/-- The part of a message is copied behind what there is. -/
def append (s : Shtp) (part : List UInt8) (left : ℕ) : Option Shtp :=
  (s.inPayload.write s.inCursor part).map fun b =>
    { s with inPayload := b, inCursor := s.inCursor + part.length, inRemaining := left }

/-- The message, when it is complete. -/
def message (s : Shtp) : List UInt8 := s.inPayload.elems.take s.inCursor

end Shtp

end PicoUros.Imu
