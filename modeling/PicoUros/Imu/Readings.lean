import PicoUros.Imu.Reports
import PicoUros.Imu.Driver
import Mathlib.Data.Rat.Defs
import Mathlib.Tactic.NormNum

/-!
# From the reports to the record of core 1

`sensorHandler` decodes every sensor report of a message into the one `_sensor_value`
(`sh2_SensorValue.c`), and core 1 looks at it when the call of `getSensorEvent` has returned. So of
the readings in a message it sees the last one. `getSensorEvent` takes the time 0 for the absence of
an event.

The numbers in a report are signed, of 16 bits, with a fixed binary point. The `float` that a
decoder computes from such a number is exact, and rationals stand for it.

## Main definitions

* `RawEvent.decode`: `sh2_decodeSensorEvent`, for the reports that core 1 uses.
* `Sensor`, `Sensor.data`: these reports, and the bytes of their numbers.
* `Lost`: the time of a reading is 0.

## Main results

* `step_poll_reading`: the last reading of a message is stored in `imu`, as the hub sent it, unless
  its delay makes its time 0. Then it is lost, and the iteration ends.
-/

namespace PicoUros.Imu

/-! ### Decoding -/

/-- `read16`. -/
def read16 (report : List UInt8) (i : ℕ) : ℤ := leInt 2 (report.drop i)

/-- `SCALE_Q`. -/
def scaleQ (n : ℕ) : ℚ := 1 / 2 ^ n

/-- A decoder that fills the first `words` words of the union. -/
def decodeWords (words q : ℕ) (un : Fin 4 → ℚ) (report : List UInt8) : Fin 4 → ℚ :=
  fun i => if i < words then read16 report (4 + 2 * i) * scaleQ q else un i

/-- `decodeRotationVector`, without the accuracy. -/
def decodeRotationVector (un : Fin 4 → ℚ) (report : List UInt8) : Fin 4 → ℚ :=
  decodeWords 4 14 un report

/-- `decodeGyroscopeCalibrated`. -/
def decodeGyroscopeCalibrated (un : Fin 4 → ℚ) (report : List UInt8) : Fin 4 → ℚ :=
  decodeWords 3 9 un report

/-- `decodeLinearAcceleration`. -/
def decodeLinearAcceleration (un : Fin 4 → ℚ) (report : List UInt8) : Fin 4 → ℚ :=
  decodeWords 3 8 un report

/-- The event with its values. `un` stands for the words that no decoder here writes, of which core
1 reads none. -/
def RawEvent.decode (un : RawEvent → Fin 4 → ℚ) (e : RawEvent) : SensorEvent ℚ where
  reportId := e.reportId
  timestamp := e.timestamp
  un :=
    match e.reportId with
    | 0x05 => decodeRotationVector (un e) e.report
    | 0x02 => decodeGyroscopeCalibrated (un e) e.report
    | 0x04 => decodeLinearAcceleration (un e) e.report
    | _ => un e

/-- A notification, as the driver gets it. -/
def HubNote.decode (un : RawEvent → Fin 4 → ℚ) : HubNote → Note ℚ
  | .sensor e => .sensor (e.decode un)
  | .resetComplete => .resetComplete

/-! ### The readings that core 1 uses -/

/-- The sensors whose reports are enabled. -/
inductive Sensor where
  | rotationVector
  | gyroscope
  | linearAcceleration
  deriving DecidableEq

namespace Sensor

def id : Sensor → UInt8
  | .rotationVector => 0x05
  | .gyroscope => 0x02
  | .linearAcceleration => 0x04

/-- The numbers of a report. -/
def words : Sensor → ℕ
  | .rotationVector => 4
  | .gyroscope => 3
  | .linearAcceleration => 3

/-- The place of the binary point. -/
def q : Sensor → ℕ
  | .rotationVector => 14
  | .gyroscope => 9
  | .linearAcceleration => 8

/-- The bytes of a reading. -/
def data (sensor : Sensor) (x : Fin 4 → ℤ) : List UInt8 :=
  ((List.finRange 4).take sensor.words).flatMap fun i => leBytes 2 (x i % 65536).toNat

/-- The reading `x` of the sensor replaces the one in `imu`. -/
def store (sensor : Sensor) (x : Fin 4 → ℚ) (imu : ImuT ℚ) : ImuT ℚ :=
  match sensor, List.ofFn x with
  | .rotationVector, [i, j, k, real] => { imu with qx := i, qy := j, qz := k, qw := real }
  | .gyroscope, x :: y :: z :: _ => { imu with gx := x, gy := y, gz := z }
  | .linearAcceleration, x :: y :: z :: _ => { imu with ax := x, ay := y, az := z }
  | _, _ => imu

end Sensor

/-- The numbers are read back where they stand in a report. -/
theorem read16_data {sensor : Sensor} {x : Fin 4 → ℤ} (hx : ∀ i, -2 ^ 15 ≤ x i ∧ x i < 2 ^ 15)
    {hdr rest : List UInt8} (hhdr : hdr.length = 4) {i : Fin 4} (hi : i < sensor.words) :
    read16 (hdr ++ (sensor.data x ++ rest)) (4 + 2 * i) = x i := by
  have hread (i : Fin 4) (rest : List UInt8) :
      leInt 2 (leBytes 2 (x i % 65536).toNat ++ rest) = x i := by
    obtain ⟨hmin, hmax⟩ := hx i
    exact leInt_leBytes (by norm_num; omega) (by norm_num; omega) rest
  have hdrop (n : ℕ) : (hdr ++ (sensor.data x ++ rest)).drop (4 + n) =
      (sensor.data x ++ rest).drop n := by
    rw [← hhdr, List.drop_append, List.drop_of_length_le (Nat.le_add_right _ _),
      Nat.add_sub_cancel_left, List.nil_append]
  have hlen : sensor.words ≤ 4 := by cases sensor <;> decide
  have hi' : i.val < ((List.finRange 4).take sensor.words).length := by
    rw [List.length_take, List.length_finRange]
    omega
  have hfirst : ((List.finRange 4).take sensor.words)[i.val] = i := by
    rw [List.getElem_take, List.getElem_finRange]
    rfl
  have hdata := drop_flatMap_leBytes 2 (fun j => (x j % 65536).toNat)
    ((List.finRange 4).take sensor.words) i
  rw [List.drop_eq_getElem_cons hi', List.flatMap_cons, hfirst] at hdata
  rw [read16, hdrop, Sensor.data, List.drop_append, hdata, List.append_assoc, hread]

/-! ### The last reading of a message -/

/-- The reference behind the reports of a list. -/
def referenceOf (delta : UInt32) (rs : List InputReport) : UInt32 :=
  rs.foldl (fun delta r => r.reference delta) delta

theorem eventsOf_concat (rollovers t delta : UInt32) (rs : List InputReport) (r : SensorReport) :
    eventsOf rollovers t delta (rs ++ [.sensor r]) = eventsOf rollovers t delta rs ++
      [⟨r.id, InputReport.stamp rollovers t (referenceOf delta rs) r.delay, r.bytes⟩] := by
  induction rs generalizing delta with
  | nil => rfl
  | cons r rs ih => rw [List.cons_append, eventsOf, ih, eventsOf, List.append_assoc]; rfl

/-- The delay of a reading makes its time 0, for the reference `delta`. -/
def Lost (delta : UInt32) (delay : ℕ) : Prop := (delta.toNat + delay) % 2 ^ 30 = 0

instance (delta : UInt32) (delay : ℕ) : Decidable (Lost delta delay) :=
  inferInstanceAs (Decidable (_ = _))

/-- The time of a reading is 0 if its delay makes up for the reference, but for a multiple of the
range that is left of 32 bits by the factor 100. -/
theorem stamp_eq_zero_iff {delta : UInt32} {delay : ℕ} :
    InputReport.stamp 0 0 delta delay = 0 ↔ Lost delta delay := by
  have hdelta := delta.toNat_lt
  have hstamp : (InputReport.stamp 0 0 delta delay).toNat =
      (delta.toNat + delay) % 2 ^ 32 * 100 % 2 ^ 32 := by
    simp only [InputReport.stamp, UInt64.toNat_add, UInt64.toNat_shiftLeft, UInt32.toNat_toUInt64,
      UInt32.toNat_add, UInt32.toNat_mul, UInt32.toNat_ofNat', UInt32.toNat_ofNat]
    norm_num
    omega
  rw [← UInt64.toNat_inj, hstamp, Lost, UInt64.toNat_zero]
  omega

/-- What the driver hears of when a message of reports arrives at the time 0. -/
def notesOf (un : RawEvent → Fin 4 → ℚ) (rs : List InputReport) : List (Note ℚ) :=
  (eventsOf 0 0 0 rs).map fun e => .sensor (e.decode un)

theorem sensor_id_mem (sensor : Sensor) :
    sensor.id ∈ decodableIds ∧ sensor.id ≠ gyroIntegratedRv := by
  cases sensor <;> decide

/-- The words that the decoder of a reading writes are those that the hub sent, scaled. -/
theorem decode_reading {un : RawEvent → Fin 4 → ℚ} {r : SensorReport} {sensor : Sensor}
    {x : Fin 4 → ℤ} {rest : List UInt8} {time : UInt64} (hid : r.id = sensor.id)
    (hdata : r.data = sensor.data x ++ rest) (hx : ∀ i, -2 ^ 15 ≤ x i ∧ x i < 2 ^ 15) {i : Fin 4}
    (hi : i < sensor.words) :
    (RawEvent.decode un ⟨r.id, time, r.bytes⟩).un i = x i * scaleQ sensor.q := by
  have hread : read16 r.bytes (4 + 2 * i) = x i := by
    have hbytes : r.bytes = [r.id, r.seq, UInt8.ofNat (r.delay / 256 * 4 + r.status),
        UInt8.ofNat r.delay] ++ (sensor.data x ++ rest) := by
      rw [← hdata]
      rfl
    rw [hbytes]
    exact read16_data hx rfl hi
  have hun : (RawEvent.decode un ⟨r.id, time, r.bytes⟩).un =
      decodeWords sensor.words sensor.q (un ⟨r.id, time, r.bytes⟩) r.bytes := by
    simp only [RawEvent.decode, hid]
    cases sensor <;> rfl
  rw [hun, decodeWords, if_pos hi, hread]

/-- Behind the last report of a message, `_sensor_value` is the reading in it. -/
theorem service_concat {d : Bno08x ℚ} {ns : List (Note ℚ)} {e : SensorEvent ℚ}
    (he : e.reportId ∈ decodableIds) :
    (d.service (ns ++ [.sensor e])).sensorValue = ⟨e.reportId, e.timestamp, e.un⟩ := by
  rw [Bno08x.service, List.foldl_append]
  simp only [List.foldl_cons, List.foldl_nil, Bno08x.callback, Bno08x.sensorHandler,
    decodeSensorEvent, if_pos he]

/-- What a call of `getSensorEvent` leaves, when the last thing it hears of is a reading. -/
theorem step_poll_concat {s t : State ℚ} {ns : List (Note ℚ)} {e : SensorEvent ℚ}
    (he : e.reportId ∈ decodableIds) (hne : e.reportId ≠ gyroIntegratedRv)
    (h : step s (.poll (ns ++ [.sensor e])) = some t) :
    if e.timestamp = 0 then
      t.imu = s.imu ∧ t.gotRv = false ∧
        t.pushed = if s.gotRv then s.pushed ++ [s.imu] else s.pushed
    else
      (t.imu, t.gotRv) = readSensor ⟨e.reportId, e.timestamp, e.un⟩ s.imu s.gotRv ∧
        t.pushed = s.pushed := by
  have hval := @service_concat
    { s.driver with sensorValue := { s.driver.sensorValue with timestamp := 0 } } ns e he
  have hbody (u : State ℚ) (hu : u.driver.sensorValue = ⟨e.reportId, e.timestamp, e.un⟩) :
      (u.body.imu, u.body.gotRv) = readSensor ⟨e.reportId, e.timestamp, e.un⟩ u.imu u.gotRv ∧
        u.body.pushed = u.pushed := by
    rw [← hu, State.body]
    cases u.driver.wasReset with
    | mk reset d => cases reset <;> exact ⟨rfl, rfl⟩
  simp only [step] at h
  split at h
  · rename_i silent _ _
    simp only [Bno08x.getSensorEvent, hval] at h
    by_cases hzero : e.timestamp = 0
    · rw [if_pos hzero]
      simp only [hzero, hne, ne_eq, not_false_eq_true, and_self, if_true, Option.some.injEq] at h
      subst h
      exact ⟨rfl, rfl, rfl⟩
    · rw [if_neg hzero]
      simp only [hzero, false_and, if_false, Option.some.injEq] at h
      subst h
      exact hbody _ hval
  · cases h

/-- Core 1 copies the reading of a sensor. -/
theorem readSensor_eq {v : SensorValue ℚ} {imu : ImuT ℚ} {gotRv : Bool} {sensor : Sensor}
    {y : Fin 4 → ℚ} (hid : v.sensorId = sensor.id)
    (hun : ∀ i : Fin 4, i < sensor.words → v.un i = y i) :
    readSensor v imu gotRv = (sensor.store y imu, gotRv || sensor == .rotationVector) := by
  have h0 := hun 0
  have h1 := hun 1
  have h2 := hun 2
  have h3 := hun 3
  cases sensor with
  | rotationVector =>
    have hv : v.sensorId = 0x05 := hid
    rw [readSensor, if_pos hv, h0 (by decide), h1 (by decide), h2 (by decide), h3 (by decide)]
    simp [Sensor.store]
  | gyroscope =>
    have hv : v.sensorId = 0x02 := hid
    rw [readSensor, hv, if_neg (by decide), if_pos rfl, h0 (by decide), h1 (by decide),
      h2 (by decide)]
    simp [Sensor.store]
  | linearAcceleration =>
    have hv : v.sensorId = 0x04 := hid
    rw [readSensor, hv, if_neg (by decide), if_neg (by decide), if_pos rfl, h0 (by decide),
      h1 (by decide), h2 (by decide)]
    simp [Sensor.store]

/-- **The last reading of a message is stored as the hub sent it**, and the others are not stored.
It is lost if its delay makes its time 0, and then the iteration ends. -/
theorem step_poll_reading {s t : State ℚ} {un : RawEvent → Fin 4 → ℚ} {rs : List InputReport}
    {r : SensorReport} {sensor : Sensor} {x : Fin 4 → ℤ} {rest : List UInt8}
    (hid : r.id = sensor.id) (hdata : r.data = sensor.data x ++ rest)
    (hx : ∀ i, -2 ^ 15 ≤ x i ∧ x i < 2 ^ 15)
    (h : step s (.poll (notesOf un (rs ++ [.sensor r]))) = some t) :
    if Lost (referenceOf 0 rs) r.delay then
      t.imu = s.imu ∧ t.gotRv = false ∧
        t.pushed = if s.gotRv then s.pushed ++ [s.imu] else s.pushed
    else
      t.imu = sensor.store (fun i => x i / 2 ^ sensor.q) s.imu ∧
        t.gotRv = (s.gotRv || sensor == .rotationVector) ∧ t.pushed = s.pushed := by
  obtain ⟨hmem, hne⟩ := sensor_id_mem sensor
  rw [← hid] at hmem hne
  have hword (time : UInt64) {i : Fin 4} (hi : i < sensor.words) :
      (RawEvent.decode un ⟨r.id, time, r.bytes⟩).un i = x i / 2 ^ sensor.q := by
    rw [decode_reading hid hdata hx hi, scaleQ, mul_one_div]
  rw [notesOf, eventsOf_concat, List.map_append, List.map_singleton] at h
  have hpoll := step_poll_concat (e := RawEvent.decode un ⟨r.id, _, r.bytes⟩) hmem hne h
  have hzero : (RawEvent.decode un ⟨r.id, InputReport.stamp 0 0 (referenceOf 0 rs) r.delay,
      r.bytes⟩).timestamp = 0 ↔ Lost (referenceOf 0 rs) r.delay := stamp_eq_zero_iff
  simp only [hzero] at hpoll
  by_cases hlost : Lost (referenceOf 0 rs) r.delay
  · rwa [if_pos hlost] at hpoll ⊢
  · rw [if_neg hlost] at hpoll ⊢
    obtain ⟨himu, hpushed⟩ := hpoll
    have hread := himu.trans (readSensor_eq hid fun i hi => hword _ hi)
    exact ⟨congrArg Prod.fst hread, congrArg Prod.snd hread, hpushed⟩

/-- A rotation vector of which all components are 1/2, behind a reference of 500 µs. -/
theorem step_poll_reading_half : ∃ s t : State ℚ,
    step s (.poll (notesOf (fun _ _ => 0) ([.base 5] ++ [.sensor halfQuaternion]))) = some t ∧
      t.imu = Sensor.rotationVector.store (fun _ => ((8192 : ℤ) : ℚ) / 2 ^ 14) s.imu := by
  let s : State ℚ := .start ⟨0, 0, 0, 0, 0, 0, 0, 0, 0, 0⟩ (fun _ => 0) false
  obtain ⟨t, ht⟩ := Option.isSome_iff_exists.mp (show (step s (.poll (notesOf (fun _ _ => 0)
    ([.base 5] ++ [.sensor halfQuaternion])))).isSome by decide +kernel)
  have hdata : halfQuaternion.data = Sensor.rotationVector.data (fun _ => 8192) ++ [0, 0] := by
    decide
  have hread := step_poll_reading rfl hdata (by decide) ht
  rw [if_neg (by decide +kernel)] at hread
  exact ⟨s, t, ht, hread.1⟩

end PicoUros.Imu
