import PicoUros.Lib.Machine
import Mathlib.Data.List.Basic

/-!
# The IMU section of core 1

Every iteration of the outer loop of core 1 calls `IMU.getSensorEvent` until it finds no event,
copies the reading of each event into `imu`, and enables the three reports again when
`IMU.wasReset` says that the sensor hub has been reset (`src/main.cpp`, lines 899–928). A call of
`getSensorEvent` services the hub once. The callbacks of the `sh2` library run inside this call:
`sensorHandler` decodes a sensor report into `_sensor_value`, and `hal_callback` sets
`_reset_occurred` when a reset is complete (`bno08x.cpp`, lines 1017–1044 and 1248–1268). An
enable call writes one command to the hub. As long as the hub does not acknowledge the write, it is
serviced and the write is repeated (`shtp.c`, lines 308–314).

The rest of an iteration neither services the hub nor uses the variables of this section, so
it is not part of `step`. After a reset the hub sends no sensor report until a report is enabled.

## Main definitions

* `SensorEvent`, `Note`: what a callback is called with.
* `Bno08x`: the variables of the driver, with `wasReset` and `getSensorEvent`.
* `State`, `Act`, `step`: the section, a call of `getSensorEvent` or an attempt to write a command
  being one step.

## Main results

* `Bno08x.getSensorEvent_fst`: a call finds an event exactly if the notifications leave one.
* `step_poll`, `step_nack`, `step_ack`: what a step does.
-/

namespace PicoUros.Imu

variable {F : Type*}

/-! ### The driver -/

/-- `SH2_GYRO_INTEGRATED_RV`. -/
def gyroIntegratedRv : UInt8 := 0x2A

/-- The report ids with a case in `sh2_decodeSensorEvent`. -/
def decodableIds : List UInt8 :=
  [0x14, 0x01, 0x04, 0x06, 0x15, 0x02, 0x07, 0x16, 0x03, 0x0f, 0x05, 0x08, 0x09, 0x0a, 0x0b, 0x0c,
    0x0d, 0x0e, 0x17, 0x10, 0x18, 0x11, 0x12, 0x13, 0x19, 0x1a, 0x1b, 0x1c, 0x1e, 0x1f, 0x20, 0x21,
    0x22, 0x23, 0x28, 0x29, 0x2A, 0x2B]

/-- `sh2_SensorEvent_t`, with the report's values as the decoder of its id converts them. -/
structure SensorEvent (F : Type*) where
  reportId : UInt8
  timestamp : UInt64
  /-- The first words of the union that the values are stored in. -/
  un : Fin 4 → F

/-- `sh2_SensorValue_t`. -/
structure SensorValue (F : Type*) where
  sensorId : UInt8
  timestamp : UInt64
  un : Fin 4 → F

/-- `sh2_decodeSensorEvent`, with `false` for `SH2_ERR`. -/
def decodeSensorEvent (v : SensorValue F) (e : SensorEvent F) : Bool × SensorValue F :=
  if e.reportId ∈ decodableIds then (true, ⟨e.reportId, e.timestamp, e.un⟩)
  else (false, { v with sensorId := e.reportId, timestamp := e.timestamp })

/-- A message of the hub for which the `sh2` library calls back. -/
inductive Note (F : Type*) where
  | sensor (e : SensorEvent F)
  | resetComplete

/-- `_sensor_value` and `_reset_occurred`. -/
structure Bno08x (F : Type*) where
  sensorValue : SensorValue F
  resetOccurred : Bool

namespace Bno08x

/-- `sensorHandler`. -/
def sensorHandler (d : Bno08x F) (e : SensorEvent F) : Bno08x F :=
  match decodeSensorEvent d.sensorValue e with
  | (true, v) => { d with sensorValue := v }
  | (false, v) => { d with sensorValue := { v with timestamp := 0 } }

/-- `hal_callback` for `SH2_RESET`. -/
def halCallback (d : Bno08x F) : Bno08x F := { d with resetOccurred := true }

/-- The callback for a notification. -/
def callback (d : Bno08x F) : Note F → Bno08x F
  | .sensor e => d.sensorHandler e
  | .resetComplete => d.halCallback

/-- `sh2_service`, when it gets the notifications `ns`. -/
def service (d : Bno08x F) (ns : List (Note F)) : Bno08x F := ns.foldl callback d

/-- `BNO08x::wasReset`. -/
def wasReset (d : Bno08x F) : Bool × Bno08x F :=
  (d.resetOccurred, { d with resetOccurred := false })

/-- `BNO08x::getSensorEvent`, when the service gets the notifications `ns`. -/
def getSensorEvent (d : Bno08x F) (ns : List (Note F)) : Bool × Bno08x F :=
  let d := ({ d with sensorValue := { d.sensorValue with timestamp := 0 } } : Bno08x F).service ns
  if d.sensorValue.timestamp = 0 ∧ d.sensorValue.sensorId ≠ gyroIntegratedRv then (false, d)
  else (true, d)

end Bno08x

/-! ### The loop -/

/-- `imu_t`. -/
structure ImuT (F : Type*) where
  qx : F
  qy : F
  qz : F
  qw : F
  gx : F
  gy : F
  gz : F
  ax : F
  ay : F
  az : F

/-- The body of the loop up to the test of `wasReset`: the new `imu` and `got_rv`. -/
def readSensor (v : SensorValue F) (imu : ImuT F) (gotRv : Bool) : ImuT F × Bool :=
  if v.sensorId = 0x05 then
    ({ imu with qx := v.un 0, qy := v.un 1, qz := v.un 2, qw := v.un 3 }, true)
  else if v.sensorId = 0x02 then ({ imu with gx := v.un 0, gy := v.un 1, gz := v.un 2 }, gotRv)
  else if v.sensorId = 0x04 then ({ imu with ax := v.un 0, ay := v.un 1, az := v.un 2 }, gotRv)
  else (imu, gotRv)

/-- The three enable calls, in their order. -/
inductive Report where
  | rotationVector
  | gyro
  | linearAccelerometer
  deriving DecidableEq

def Report.next : Report → Option Report
  | .rotationVector => some .gyro
  | .gyro => some .linearAccelerometer
  | .linearAccelerometer => none

/-- The next thing that core 1 does with the hub. -/
inductive Pc where
  | poll
  | enable (r : Report)
  deriving DecidableEq

/-- What is recorded of a run. -/
inductive Event where
  | resetComplete
  | call (r : Report)
  | endIteration
  deriving DecidableEq

structure State (F : Type*) where
  driver : Bno08x F
  imu : ImuT F
  gotRv : Bool := false
  pc : Pc := .poll
  /-- The hub has been reset and no report has been enabled since. -/
  silent : Bool := false
  /-- The elements pushed on `q_imu`. -/
  pushed : List (ImuT F) := []
  log : List Event := []

/-- Core 1 after the first enable calls. Messages of the start may have set `_reset_occurred`. -/
def State.start (imu : ImuT F) (un : Fin 4 → F) (resetOccurred : Bool) : State F where
  driver := ⟨⟨0, 0, un⟩, resetOccurred⟩
  imu := imu

/-- The hub sends `ns`: the new value of `silent`, or `none` when it would break its silence. -/
def hubSend : Bool → List (Note F) → Option Bool
  | silent, [] => some silent
  | silent, .sensor _ :: ns => if silent then none else hubSend silent ns
  | _, .resetComplete :: ns => hubSend true ns

/-- The resets among `ns`. -/
def resets : List (Note F) → List Event
  | [] => []
  | .sensor _ :: ns => resets ns
  | .resetComplete :: ns => .resetComplete :: resets ns

/-- The body of the loop. -/
def State.body (s : State F) : State F :=
  let (imu, gotRv) := readSensor s.driver.sensorValue s.imu s.gotRv
  match s.driver.wasReset with
  | (true, d) =>
    { s with
      imu, gotRv
      driver := d
      pc := .enable .rotationVector
      log := s.log ++ [.call .rotationVector] }
  | (false, d) => { s with imu, gotRv, driver := d }

/-- The end of the loop, and of an iteration of the outer loop. -/
def State.endIteration (s : State F) : State F :=
  { s with
    gotRv := false
    pushed := if s.gotRv then s.pushed ++ [s.imu] else s.pushed
    log := s.log ++ [.endIteration] }

/-- `poll ns` is a call of `getSensorEvent`. `nack ns` and `ack` are attempts to write the command
of an enable call: the hub does not acknowledge the write and is serviced, or it does and the call
returns. -/
inductive Act (F : Type*) where
  | poll (ns : List (Note F))
  | nack (ns : List (Note F))
  | ack

def step (s : State F) : Act F → Option (State F)
  | .poll ns =>
    match s.pc, hubSend s.silent ns with
    | .poll, some silent =>
      match s.driver.getSensorEvent ns with
      | (true, d) => some { s with driver := d, silent, log := s.log ++ resets ns }.body
      | (false, d) => some { s with driver := d, silent, log := s.log ++ resets ns }.endIteration
    | _, _ => none
  | .nack ns =>
    match s.pc, hubSend s.silent ns with
    | .enable _, some silent =>
      some { s with driver := s.driver.service ns, silent, log := s.log ++ resets ns }
    | _, _ => none
  | .ack =>
    match s.pc with
    | .enable r =>
      match r.next with
      | some r' => some { s with silent := false, pc := .enable r', log := s.log ++ [.call r'] }
      | none => some { s with silent := false, pc := .poll }
    | .poll => none

/-! ### The event that a service leaves -/

/-- The sensor id after the notifications `ns`. -/
def lastId : UInt8 → List (Note F) → UInt8
  | id, [] => id
  | _, .sensor e :: ns => lastId e.reportId ns
  | id, .resetComplete :: ns => lastId id ns

/-- The timestamp after the notifications `ns`: that of the last report, if it can be decoded. -/
def lastTimestamp : UInt64 → List (Note F) → UInt64
  | t, [] => t
  | _, .sensor e :: ns => lastTimestamp (if e.reportId ∈ decodableIds then e.timestamp else 0) ns
  | t, .resetComplete :: ns => lastTimestamp t ns

/-- The notifications `ns` leave an event, when `id` is the sensor id before. -/
def LeavesEvent (id : UInt8) (ns : List (Note F)) : Prop :=
  lastTimestamp 0 ns ≠ 0 ∨ lastId id ns = gyroIntegratedRv

instance (id : UInt8) (ns : List (Note F)) : Decidable (LeavesEvent id ns) :=
  inferInstanceAs (Decidable (_ ∨ _))

namespace Bno08x

theorem sensorHandler_sensorId (d : Bno08x F) (e : SensorEvent F) :
    (d.sensorHandler e).sensorValue.sensorId = e.reportId := by
  by_cases h : e.reportId ∈ decodableIds <;> simp [sensorHandler, decodeSensorEvent, h]

theorem sensorHandler_timestamp (d : Bno08x F) (e : SensorEvent F) :
    (d.sensorHandler e).sensorValue.timestamp =
      if e.reportId ∈ decodableIds then e.timestamp else 0 := by
  by_cases h : e.reportId ∈ decodableIds <;> simp [sensorHandler, decodeSensorEvent, h]

theorem sensorHandler_resetOccurred (d : Bno08x F) (e : SensorEvent F) :
    (d.sensorHandler e).resetOccurred = d.resetOccurred := by
  by_cases h : e.reportId ∈ decodableIds <;> simp [sensorHandler, decodeSensorEvent, h]

theorem service_sensorId (d : Bno08x F) (ns : List (Note F)) :
    (d.service ns).sensorValue.sensorId = lastId d.sensorValue.sensorId ns := by
  induction ns generalizing d with
  | nil => rfl
  | cons n ns ih =>
    refine (ih _).trans ?_
    cases n with
    | sensor e => rw [callback, sensorHandler_sensorId, lastId]
    | resetComplete => rfl

theorem service_timestamp (d : Bno08x F) (ns : List (Note F)) :
    (d.service ns).sensorValue.timestamp = lastTimestamp d.sensorValue.timestamp ns := by
  induction ns generalizing d with
  | nil => rfl
  | cons n ns ih =>
    refine (ih _).trans ?_
    cases n with
    | sensor e => rw [callback, sensorHandler_timestamp, lastTimestamp]
    | resetComplete => rfl

/-- A service sets `_reset_occurred` if it gets a reset. -/
theorem service_resetOccurred (d : Bno08x F) (ns : List (Note F)) :
    (d.service ns).resetOccurred = true ↔ d.resetOccurred = true ∨ .resetComplete ∈ resets ns := by
  induction ns generalizing d with
  | nil => simp [service, resets]
  | cons n ns ih =>
    refine (ih _).trans ?_
    cases n with
    | sensor e => rw [callback, sensorHandler_resetOccurred, resets]
    | resetComplete => simp [callback, halCallback, resets]

/-- **A call of `getSensorEvent` finds an event exactly if the notifications leave one.** -/
theorem getSensorEvent_fst (d : Bno08x F) (ns : List (Note F)) :
    (d.getSensorEvent ns).1 = true ↔ LeavesEvent d.sensorValue.sensorId ns := by
  have hid := service_sensorId { d with sensorValue := { d.sensorValue with timestamp := 0 } } ns
  have ht := service_timestamp { d with sensorValue := { d.sensorValue with timestamp := 0 } } ns
  simp only [getSensorEvent, hid, ht, LeavesEvent]
  by_cases h : lastTimestamp 0 ns = 0 ∧ lastId d.sensorValue.sensorId ns ≠ gyroIntegratedRv
  · rw [if_pos h]
    simp [h]
  · rw [if_neg h]
    exact iff_of_true rfl (by rwa [not_and_or, not_not] at h)

theorem getSensorEvent_snd (d : Bno08x F) (ns : List (Note F)) :
    (d.getSensorEvent ns).2 =
      { d with sensorValue := { d.sensorValue with timestamp := 0 } }.service ns := by
  simp only [getSensorEvent]
  split_ifs <;> rfl

end Bno08x

/-! ### What a step does -/

namespace State

/-- The sensor id in `_sensor_value`. -/
def id (s : State F) : UInt8 := s.driver.sensorValue.sensorId

/-- `_reset_occurred`. -/
def flag (s : State F) : Bool := s.driver.resetOccurred

end State

variable {s t : State F} {ns : List (Note F)}

/-- A call of `getSensorEvent` that finds no event ends the iteration. One that finds an event
leads to the enable calls if `_reset_occurred` is set. -/
theorem step_poll (h : step s (.poll ns) = some t) :
    s.pc = .poll ∧ hubSend s.silent ns = some t.silent ∧ t.id = lastId s.id ns ∧
      ((¬ LeavesEvent s.id ns ∧ t.pc = .poll ∧ t.log = s.log ++ (resets ns ++ [.endIteration]) ∧
          (t.flag = true ↔ s.flag = true ∨ .resetComplete ∈ resets ns)) ∨
        (LeavesEvent s.id ns ∧ s.flag = false ∧ .resetComplete ∉ resets ns ∧ t.pc = .poll ∧
          t.log = s.log ++ resets ns) ∨
        (LeavesEvent s.id ns ∧ t.pc = .enable .rotationVector ∧
          t.log = s.log ++ (resets ns ++ [.call .rotationVector]))) := by
  cases hpc : s.pc with
  | enable r => simp [step, hpc] at h
  | poll =>
    cases hsend : hubSend s.silent ns with
    | none => simp [step, hpc, hsend] at h
    | some silent =>
      have hevent := s.driver.getSensorEvent_fst ns
      have hsnd := s.driver.getSensorEvent_snd ns
      have hid := Bno08x.service_sensorId
        { s.driver with sensorValue := { s.driver.sensorValue with timestamp := 0 } } ns
      have hflag := Bno08x.service_resetOccurred
        { s.driver with sensorValue := { s.driver.sensorValue with timestamp := 0 } } ns
      rw [← hsnd] at hid hflag
      rcases hget : s.driver.getSensorEvent ns with ⟨event, d⟩
      rw [hget] at hevent hid hflag
      simp only [step, hpc, hsend, hget] at h
      cases event with
      | false =>
        obtain rfl := Option.some.inj h
        exact ⟨rfl, rfl, hid, .inl ⟨fun hl => Bool.noConfusion (hevent.mpr hl), rfl,
          List.append_assoc _ _ _, hflag⟩⟩
      | true =>
        obtain rfl := Option.some.inj h
        have hl := hevent.mp rfl
        obtain ⟨v, reset⟩ := d
        cases reset with
        | false =>
          have hnot : ¬ (s.flag = true ∨ .resetComplete ∈ resets ns) := fun hf =>
            Bool.noConfusion (hflag.mpr hf)
          exact ⟨rfl, rfl, hid, .inr (.inl ⟨hl, Bool.eq_false_iff.mpr fun hf => hnot (.inl hf),
            fun hns => hnot (.inr hns), rfl, rfl⟩)⟩
        | true => exact ⟨rfl, rfl, hid, .inr (.inr ⟨hl, rfl, List.append_assoc _ _ _⟩)⟩

/-- While a write is not acknowledged, core 1 stays at the same enable call. -/
theorem step_nack (h : step s (.nack ns) = some t) :
    ∃ r, s.pc = .enable r ∧ t.pc = .enable r ∧ hubSend s.silent ns = some t.silent ∧
      t.id = lastId s.id ns ∧ t.log = s.log ++ resets ns ∧
      (t.flag = true ↔ s.flag = true ∨ .resetComplete ∈ resets ns) := by
  cases hpc : s.pc with
  | poll => simp [step, hpc] at h
  | enable r =>
    cases hsend : hubSend s.silent ns with
    | none => simp [step, hpc, hsend] at h
    | some silent =>
      simp only [step, hpc, hsend] at h
      obtain rfl := Option.some.inj h
      exact ⟨r, rfl, rfl, rfl, s.driver.service_sensorId ns, rfl, s.driver.service_resetOccurred ns⟩

/-- An acknowledged write leads to the next enable call, or back to the loop. -/
theorem step_ack (h : step s .ack = some t) :
    ∃ r, s.pc = .enable r ∧ t.id = s.id ∧ t.flag = s.flag ∧
      ((r.next = none ∧ t.pc = .poll ∧ t.log = s.log) ∨
        ∃ r', r.next = some r' ∧ t.pc = .enable r' ∧ t.log = s.log ++ [.call r']) := by
  cases hpc : s.pc with
  | poll => simp [step, hpc] at h
  | enable r =>
    cases hnext : r.next with
    | none =>
      simp only [step, hpc, hnext] at h
      obtain rfl := Option.some.inj h
      exact ⟨r, rfl, rfl, rfl, .inl ⟨hnext, rfl, rfl⟩⟩
    | some r' =>
      simp only [step, hpc, hnext] at h
      obtain rfl := Option.some.inj h
      exact ⟨r, rfl, rfl, rfl, .inr ⟨r', hnext, rfl, rfl⟩⟩

end PicoUros.Imu
