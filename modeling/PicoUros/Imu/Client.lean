import PicoUros.Imu.Sh2
import PicoUros.Lib.Machine

/-!
# The client of the sensor hub

Core 1 talks to the sensor hub through the `sh2` library. A call of the library services the hub,
which is one read of the hardware layer and `rxAssemble` for what it returned, or sends a message.
`txProcess` sends a message in transfers (`shtp.c`, lines 268–328). A write that the hardware layer
does not accept is repeated, and the hub is serviced before each repetition. So transfers arrive
while a message is being sent, and the functions of `PicoUros.Imu.Sh2` may change the tables and
the transfer size that `txProcess` uses.

The choices of the hardware layer are in the actions: what a read returned, and whether a write was
accepted. `shtp_service` sends a request for the advertisement if one is needed. None is, by
`Client.Reachable.advertPhase`, and such a service is not a step.

## Main definitions

* `Client`, `Client.Act`, `Client.step`: the library, as core 1 uses it.
* `Client.Reachable`: the states that it reaches behind `sh2_open`.

## Main results

* `Client.Reachable.ok`: the invariant rule.
-/

namespace PicoUros.Imu

/-- The variables of `txProcess`. -/
structure Tx where
  chan : Fin 8
  /-- The transfer in `outTransfer`. -/
  transfer : List UInt8
  /-- What is left of the message behind this transfer. -/
  rest : List UInt8
  /-- The transfer was not accepted, and the hub is serviced next. -/
  retry : Bool := false
  deriving DecidableEq

/-- The header that `txProcess` writes in front of `part`. -/
def outHeader (c : Fin 8) (seq : UInt8) (part : List UInt8) (continuation : Bool) : Header :=
  ⟨part.length + hdrLen, continuation, UInt8.ofNat c, seq⟩

/-- How much of `data` goes into the next transfer. The difference is taken modulo `2 ^ 16`. -/
def Shtp.transferLen (s : Shtp) (data : List UInt8) : ℕ :=
  min data.length ((s.outMaxTransfer + (65536 - hdrLen)) % 65536)

/-- The number of the next transfer on a channel goes up. -/
def Shtp.countOut (s : Shtp) (c : Fin 8) : Shtp :=
  let chan := { s.chan c with nextOutSeq := (s.chan c).nextOutSeq + 1 }
  { s with chan := Function.update s.chan c chan }

/-- The loop of `txProcess` puts its next transfer in `outTransfer`, which has room for
`SH2_HAL_MAX_TRANSFER_OUT` bytes. -/
def Shtp.stage (s : Shtp) (c : Fin 8) (data : List UInt8) (continuation : Bool) :
    Option (Shtp × Tx) :=
  let part := data.take (s.transferLen data)
  if part.length + hdrLen ≤ maxOut then
    some (s.countOut c,
      { chan := c
        transfer := (outHeader c (s.chan c).nextOutSeq part continuation).encode ++ part
        rest := data.drop (s.transferLen data) })
  else none

/-- The result of a write of the hardware layer. -/
inductive WriteStatus where
  | accepted
  | busy
  | error
  deriving DecidableEq

/-- `sent` records the transfers that the hardware layer has accepted. -/
structure Client where
  sh2 : Sh2
  tx : Option Tx := none
  sent : List (List UInt8) := []

/-- `service` is a call of `shtp_service` in which the read returned a transfer, or nothing.
`getProdIds` starts the operation of this name, `abandon` ends it without a result, and `write` is
an attempt to write the transfer of `txProcess`. -/
inductive Client.Act where
  | service (transfer : List UInt8) (t : UInt32)
  | setSensorCallback
  | getProdIds
  | abandon
  | send (channel : UInt8) (payload : List UInt8)
  | write (status : WriteStatus)

namespace Client

/-- `txProcess` goes on with `data`, of which nothing is sent if it is empty. -/
def transmit (k : Client) (c : Fin 8) (data : List UInt8) (continuation : Bool) : Option Client :=
  if data = [] then some { k with tx := none }
  else
    (k.sh2.shtp.stage c data continuation).map fun r =>
      { k with sh2 := { k.sh2 with shtp := r.1 }, tx := some r.2 }

/-- `shtp_send`. -/
def send (k : Client) (channel : UInt8) (payload : List UInt8) : Option Client :=
  if k.sh2.shtp.outMaxPayload < payload.length then some k
  else if h : channel.toNat < 8 then k.transmit ⟨channel.toNat, h⟩ payload false
  else some k

/-- `shtp_service`. -/
def service (k : Client) (transfer : List UInt8) (t : UInt32) : Option Client :=
  if k.sh2.shtp.advertPhase = .needed then none
  else if transfer = [] then some k
  else (k.sh2.rxAssemble transfer t).map fun s => { k with sh2 := s }

def step (k : Client) : Act → Option Client
  | .service transfer t =>
    match k.tx with
    | none => k.service transfer t
    | some x => if x.retry then { k with tx := some { x with retry := false } }.service transfer t
      else none
  | .setSensorCallback =>
    if k.tx = none then some { k with sh2 := { k.sh2 with sensorCallback := true } } else none
  | .getProdIds =>
    if k.tx = none ∧ k.sh2.op = none then some { k with sh2 := { k.sh2 with op := some {} } }
    else none
  | .abandon => if k.tx = none then some { k with sh2 := { k.sh2 with op := none } } else none
  | .send channel payload => if k.tx = none then k.send channel payload else none
  | .write status =>
    match k.tx with
    | none => none
    | some x =>
      if x.retry then none
      else
        match status with
        | .accepted => { k with sent := k.sent ++ [x.transfer] }.transmit x.chan x.rest true
        | .busy => some { k with tx := some { x with retry := true } }
        | .error => some { k with tx := none }

/-- The client behind `sh2_open`. -/
def start : Client := { sh2 := sh2Open }

end Client

/-- The transfer that an action reads. -/
def Client.Act.received : Client.Act → Option (List UInt8 × UInt32)
  | .service [] _ => none
  | .service (b :: bs) t => some (b :: bs, t)
  | _ => none

/-! ### What a step does to the state of the library -/

/-- Of the transport protocol only the numbers of the transfers to the hub are changed, and the
records, the tables and the clock of `sh2_t` are not. A registered callback stays so. -/
structure Sh2.Unheard (s t : Sh2) : Prop where
  shtp : ∃ chan : Fin 8 → Channel, (∀ c, ∃ n, chan c = { s.shtp.chan c with nextOutSeq := n }) ∧
    t.shtp = { s.shtp with chan }
  calls : t.calls = s.calls
  notes : t.notes = s.notes
  report : t.report = s.report
  sensorCallback : s.sensorCallback = true → t.sensorCallback = true
  lastHostInt : t.lastHostInt = s.lastHostInt
  rollovers : t.rollovers = s.rollovers

namespace Sh2.Unheard

variable {s t : Sh2}

theorem refl (s : Sh2) : Unheard s s :=
  ⟨⟨s.shtp.chan, fun c => ⟨(s.shtp.chan c).nextOutSeq, rfl⟩, rfl⟩, rfl, rfl, rfl, id, rfl, rfl⟩

/-- The operation in progress, and the registration of the sensor callback. -/
theorem of_op (s : Sh2) (op : Option ProdIdOp) :
    Unheard s { s with op } ∧ Unheard s { s with sensorCallback := true } :=
  have h := refl s
  ⟨⟨h.shtp, rfl, rfl, rfl, id, rfl, rfl⟩, ⟨h.shtp, rfl, rfl, rfl, fun _ => rfl, rfl, rfl⟩⟩

theorem chan (h : Unheard s t) (c : Fin 8) :
    ∃ n, t.shtp.chan c = { s.shtp.chan c with nextOutSeq := n } := by
  obtain ⟨chan, hchan, hshtp⟩ := h.shtp
  rw [hshtp]
  exact hchan c

/-- Nothing but the numbers in the table of the channels is changed. -/
theorem shtp_eq (h : Unheard s t) : t.shtp = { s.shtp with chan := t.shtp.chan } := by
  obtain ⟨chan, -, hshtp⟩ := h.shtp
  rw [hshtp]

theorem callback (h : Unheard s t) (c : Fin 8) :
    (t.shtp.chan c).callback = (s.shtp.chan c).callback := by
  obtain ⟨n, hn⟩ := h.chan c
  rw [hn]

theorem routed (h : Unheard s t) (hs : s.shtp.Routed) : t.shtp.Routed := by
  intro c
  obtain ⟨n, hn⟩ := h.chan c
  rw [h.shtp_eq] at hn ⊢
  rw [hn]
  exact hs c

end Sh2.Unheard

namespace Client

variable {k l : Client}

theorem stage_unheard {s v : Shtp} {x : Tx} {c : Fin 8} {data : List UInt8} {continuation : Bool}
    (h : s.stage c data continuation = some (v, x)) : v = s.countOut c := by
  unfold Shtp.stage at h
  simp only at h
  split_ifs at h
  exact (Prod.mk.inj (Option.some.inj h)).1.symm

theorem transmit_unheard {c : Fin 8} {data : List UInt8} {continuation : Bool}
    (h : k.transmit c data continuation = some l) : k.sh2.Unheard l.sh2 := by
  unfold transmit at h
  split_ifs at h
  · obtain rfl := Option.some.inj h
    exact .refl _
  · obtain ⟨⟨v, x⟩, hv, rfl⟩ := Option.map_eq_some_iff.mp h
    obtain rfl := stage_unheard hv
    refine ⟨⟨_, fun d => ?_, rfl⟩, rfl, rfl, rfl, id, rfl, rfl⟩
    simp only [Function.update_apply]
    split_ifs with hd
    exacts [⟨_, by rw [hd]⟩, ⟨(k.sh2.shtp.chan d).nextOutSeq, rfl⟩]

theorem service_sh2 {transfer : List UInt8} {t : UInt32} (h : k.service transfer t = some l) :
    k.sh2.shtp.advertPhase ≠ .needed ∧
      (transfer = [] ∧ l = k ∨
        transfer ≠ [] ∧ k.sh2.rxAssemble transfer t = some l.sh2 ∧ l.tx = k.tx ∧
          l.sent = k.sent) := by
  unfold service at h
  split_ifs at h with hphase htransfer
  · exact ⟨hphase, .inl ⟨htransfer, (Option.some.inj h).symm⟩⟩
  · obtain ⟨s, hs, rfl⟩ := Option.map_eq_some_iff.mp h
    exact ⟨hphase, .inr ⟨htransfer, hs, rfl, rfl⟩⟩

/-- **A step hands the transfer that it reads to `rxAssemble`**, and no other step reaches the
message under construction, the tables and the records. -/
theorem step_sh2 {a : Act} (h : step k a = some l) :
    match a.received with
    | some x => k.sh2.shtp.advertPhase ≠ .needed ∧ k.sh2.rxAssemble x.1 x.2 = some l.sh2
    | none => k.sh2.Unheard l.sh2 := by
  cases a with
  | service transfer t =>
    have hservice : ∃ k' : Client, k'.sh2 = k.sh2 ∧ k'.service transfer t = some l := by
      simp only [step] at h
      split at h
      · exact ⟨k, rfl, h⟩
      · rename_i x hx
        split_ifs at h
        exact ⟨{ k with tx := some { x with retry := false } }, rfl, h⟩
    obtain ⟨k', hk, hservice⟩ := hservice
    obtain ⟨hphase, ⟨rfl, rfl⟩ | ⟨htransfer, hrx, -⟩⟩ := service_sh2 hservice
    · exact hk ▸ .refl _
    · cases transfer with
      | nil => exact absurd rfl htransfer
      | cons b bs => exact hk ▸ ⟨hphase, hrx⟩
  | setSensorCallback =>
    simp only [step] at h
    split_ifs at h
    obtain rfl := Option.some.inj h
    exact (Sh2.Unheard.of_op k.sh2 none).2
  | getProdIds =>
    simp only [step] at h
    split_ifs at h
    obtain rfl := Option.some.inj h
    exact (Sh2.Unheard.of_op k.sh2 _).1
  | abandon =>
    simp only [step] at h
    split_ifs at h
    obtain rfl := Option.some.inj h
    exact (Sh2.Unheard.of_op k.sh2 _).1
  | send channel payload =>
    simp only [step] at h
    split_ifs at h
    unfold send at h
    split_ifs at h
    · exact Option.some.inj h ▸ .refl _
    · exact transmit_unheard h
    · exact Option.some.inj h ▸ .refl _
  | write status =>
    simp only [step] at h
    split at h
    · cases h
    · split_ifs at h
      split at h
      · have hsent := transmit_unheard h
        exact hsent
      · obtain rfl := Option.some.inj h
        exact .refl _
      · obtain rfl := Option.some.inj h
        exact .refl _

end Client

/-! ### The reachable states -/

/-- Every channel has the function that is registered for it, the listeners are those of
`sh2_open`, the transfers to the hub fit in the buffer for them, and no advertisement is needed. -/
structure Sh2.Ok (s : Sh2) : Prop where
  routed : s.shtp.Routed
  chanListener : s.shtp.chanListener = listeners
  appListener : s.shtp.appListener = advertListeners
  outMaxTransfer : s.shtp.outMaxTransfer ≤ maxOut
  advertPhase : s.shtp.advertPhase ≠ .needed

namespace Sh2.Ok

variable {s t : Sh2}

theorem sh2Open : Ok sh2Open where
  routed := routed_sh2Open
  chanListener := chanListener_sh2Open
  appListener := appListener_sh2Open
  outMaxTransfer := by decide
  advertPhase := by decide

theorem of_keeps (h : s.Ok) (hk : s.Keeps t) : t.Ok :=
  ⟨hk.routed h.routed, hk.chanListener.trans h.chanListener,
    hk.appListener.trans h.appListener, hk.outMaxTransfer h.outMaxTransfer,
    hk.advertPhase h.advertPhase⟩

theorem of_unheard (h : s.Ok) (hu : s.Unheard t) : t.Ok := by
  refine ⟨hu.routed h.routed, ?_, ?_, ?_, ?_⟩ <;> rw [hu.shtp_eq]
  exacts [h.chanListener, h.appListener, h.outMaxTransfer, h.advertPhase]

/-- A change of the message under construction. -/
theorem of_shtp (h : s.Ok) {v : Shtp} (hchan : v.chan = s.shtp.chan)
    (hlistener : v.chanListener = s.shtp.chanListener)
    (happ : v.appListener = s.shtp.appListener)
    (hsize : v.outMaxTransfer = s.shtp.outMaxTransfer)
    (hphase : v.advertPhase = s.shtp.advertPhase) : Ok { s with shtp := v } where
  routed := fun c => by rw [hchan, hlistener]; exact h.routed c
  chanListener := hlistener.trans h.chanListener
  appListener := happ.trans h.appListener
  outMaxTransfer := hsize.trans_le h.outMaxTransfer
  advertPhase := hphase.trans_ne h.advertPhase

theorem discard (h : s.Ok) (hd : Header) (c : Fin 8) :
    Ok { s with shtp := s.shtp.discard hd c } := by
  unfold Shtp.discard
  split_ifs
  exacts [h, h.of_shtp rfl rfl rfl rfl rfl]

theorem receive (h : s.Ok) {hd : Header} {c : Fin 8} {part : List UInt8} {time : UInt32}
    (ht : s.receive hd c part time = some t) : t.Ok := by
  obtain ⟨v, hv, ht⟩ := Option.bind_eq_some_iff.mp ht
  obtain ⟨w, hw, rfl⟩ := Option.map_eq_some_iff.mp ht
  obtain ⟨b, -, rfl⟩ := Option.map_eq_some_iff.mp hv
  have hstart : Ok { s with shtp := s.shtp.startAssembly c time } := by
    unfold Shtp.startAssembly
    split_ifs
    exacts [h.of_shtp rfl rfl rfl rfl rfl, h]
  have hw : w.Ok := by
    unfold Sh2.deliver at hw
    split_ifs at hw
    · split at hw
      · exact Option.some.inj hw ▸ hstart.of_shtp rfl rfl rfl rfl rfl
      · refine of_keeps ?_ (Sh2.call_keeps hw)
        exact ⟨hstart.routed, hstart.chanListener, hstart.appListener, hstart.outMaxTransfer,
          hstart.advertPhase⟩
    · exact Option.some.inj hw ▸ hstart.of_shtp rfl rfl rfl rfl rfl
  exact ⟨hw.routed.setNextInSeq c _, hw.chanListener, hw.appListener, hw.outMaxTransfer,
    hw.advertPhase⟩

theorem rxAssemble (h : s.Ok) {transfer : List UInt8} {time : UInt32}
    (ht : s.rxAssemble transfer time = some t) : t.Ok := by
  unfold Sh2.rxAssemble at ht
  split at ht
  · exact Option.some.inj ht ▸ h
  · split_ifs at ht
    · exact Option.some.inj ht ▸ h
    · split at ht
      · exact Option.some.inj ht ▸ h
      · simp only at ht
        split_ifs at ht
        · exact Option.some.inj ht ▸ h.discard _ _
        · exact (h.discard _ _).receive ht

end Sh2.Ok

namespace Client

/-- The client reaches `k` behind `sh2_open`. -/
def Reachable (k : Client) : Prop := ∃ as, Machine.run step start as = some k

/-- The reachable states keep the tables in order. -/
theorem ok_step {k l : Client} {a : Act} (hk : k.sh2.Ok) (h : step k a = some l) : l.sh2.Ok := by
  have hstep := step_sh2 h
  split at hstep
  exacts [hk.rxAssemble hstep.2, hk.of_unheard hstep]

theorem Reachable.ok {k : Client} (h : k.Reachable) : k.sh2.Ok := by
  obtain ⟨as, has⟩ := h
  exact Machine.inv_of_run (fun _ _ _ hk hst => ok_step hk hst) .sh2Open has

end Client

end PicoUros.Imu
