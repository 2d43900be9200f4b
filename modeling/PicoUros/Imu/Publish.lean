import PicoUros.Gnss.Publish
import PicoUros.Imu.Readings

/-!
# From the readings to the IMU messages

Core 1 collects the readings of the sensor hub in `imu` and pushes this record on `q_imu` at the end
of an iteration in which it has read a rotation vector. The main loop of core 0 takes the latest
record and publishes an `Imu` message from it (`src/main.cpp`, lines 1150–1168), if the clock is
synchronized with the agent. The message is a global variable. Its covariances are set once, at the
start, and are left out.

`step` interleaves the calls of core 1 and the queue calls of both cores, as in
`PicoUros.Gnss.Publish`.

## Main definitions

* `ImuMsg`, `publishImu`: the message, and the block that publishes a record.
* `Trace`: what core 1 has heard of, and its readings, in its iterations.
* `record`, `pushes`: the record that readings make up, and the records that iterations push.
* `newest`: the newest reading of a sensor.
* `System`, `Act`, `step`: the two cores.

## Main results

* `read_record`: a record has the newest reading of each sensor.
* `records_step`: core 1 keeps and pushes the records of its trace.
* `imus_fresh`: **every message published shows the newest readings at the end of an iteration**
  with a rotation vector, later messages those of later iterations.
-/

namespace PicoUros.Imu.Publish

open LatestQueue (Tagged tagAll)
open Gnss.Publish (Time stampFromRosTime)

variable {F : Type}

/-! ### Messages -/

/-- `geometry_msgs__msg__Quaternion`. -/
structure Quaternion (F : Type) where
  x : F
  y : F
  z : F
  w : F

/-- `geometry_msgs__msg__Vector3`. -/
structure Vector3 (F : Type) where
  x : F
  y : F
  z : F

/-- The fields of `sensor_msgs__msg__Imu` that are written after the start. -/
structure ImuMsg (F : Type) where
  stamp : Time
  orientation : Quaternion F
  angularVelocity : Vector3 F
  linearAcceleration : Vector3 F

/-- `imu_msg`, and what was published so far. A publication is tagged with the number of the push
that its record came from. -/
structure Publisher (F : Type) where
  imuMsg : ImuMsg F
  imus : List (Tagged (ImuMsg F)) := []

/-- The block that publishes a record. `now` is the time of the agent, if the clock is
synchronized. -/
def publishImu (now : Option ℤ) (e : Tagged (ImuT F)) (p : Publisher F) : Publisher F :=
  match now with
  | none => p
  | some ns =>
    let msg := { p.imuMsg with
      stamp := stampFromRosTime ns
      orientation := ⟨e.val.qx, e.val.qy, e.val.qz, e.val.qw⟩
      angularVelocity := ⟨e.val.gx, e.val.gy, e.val.gz⟩
      linearAcceleration := ⟨e.val.ax, e.val.ay, e.val.az⟩ }
    { imuMsg := msg, imus := p.imus ++ [⟨e.tag, msg⟩] }

/-- The message that shows a record. -/
def imuMsgOf (stamp : Time) (imu : ImuT F) : ImuMsg F where
  stamp := stamp
  orientation := ⟨imu.qx, imu.qy, imu.qz, imu.qw⟩
  angularVelocity := ⟨imu.gx, imu.gy, imu.gz⟩
  linearAcceleration := ⟨imu.ax, imu.ay, imu.az⟩

/-! ### The readings of core 1 -/

/-- What core 1 has heard of, and what the calls of `getSensorEvent` found: in the iterations that
have ended, and in this one. -/
structure Trace (F : Type) where
  heard : List (Note F) := []
  ended : List (List (SensorValue F)) := []
  current : List (SensorValue F) := []

/-- A call of `getSensorEvent` finds an event, or ends the iteration. -/
def Trace.next (tr : Trace F) (s : State F) : Imu.Act F → Trace F
  | .poll ns =>
    match s.driver.getSensorEvent ns with
    | (true, d) =>
      { tr with heard := tr.heard ++ ns, current := tr.current ++ [d.sensorValue] }
    | (false, _) =>
      { heard := tr.heard ++ ns, ended := tr.ended ++ [tr.current] }
  | .nack ns => { tr with heard := tr.heard ++ ns }
  | .ack => tr

/-- All readings, in their order. -/
def Trace.readings (tr : Trace F) : List (SensorValue F) := tr.ended.flatten ++ tr.current

/-- The reading that a notification has. -/
def valueOf : Note F → Option (SensorValue F)
  | .sensor e => some ⟨e.reportId, e.timestamp, e.un⟩
  | .resetComplete => none

/-- A reading of a sensor that is enabled. -/
def enabled (v : SensorValue F) : Bool :=
  v.sensorId = Sensor.rotationVector.id ∨ v.sensorId = Sensor.gyroscope.id ∨
    v.sensorId = Sensor.linearAcceleration.id

/-- The record that readings make up, from `imu` on. -/
def record (imu : ImuT F) (vs : List (SensorValue F)) : ImuT F :=
  vs.foldl (fun imu v => (readSensor v imu false).1) imu

/-- The readings have a rotation vector. -/
def HasRv (vs : List (SensorValue F)) : Prop := ∃ v ∈ vs, v.sensorId = Sensor.rotationVector.id

instance : DecidablePred (HasRv (F := F)) := fun vs =>
  inferInstanceAs (Decidable (∃ v ∈ vs, _))

/-- The records that iterations push, from `imu` on. -/
def pushes (imu : ImuT F) : List (List (SensorValue F)) → List (ImuT F)
  | [] => []
  | vs :: its =>
    (if HasRv vs then [record imu vs] else []) ++ pushes (record imu vs) its

theorem record_append (imu : ImuT F) (vs ws : List (SensorValue F)) :
    record imu (vs ++ ws) = record (record imu vs) ws :=
  List.foldl_append

theorem pushes_concat (imu : ImuT F) (its : List (List (SensorValue F)))
    (vs : List (SensorValue F)) :
    pushes imu (its ++ [vs]) = pushes imu its ++
      if HasRv vs then [record imu (its.flatten ++ vs)] else [] := by
  induction its generalizing imu with
  | nil => simp [pushes]
  | cons ws its ih =>
    rw [List.cons_append, pushes, ih, pushes, List.flatten_cons, List.append_assoc, record_append,
      record_append, record_append]

/-! ### The newest readings -/

/-- The reading of a sensor in a record. The fourth word of a sensor with three words stands for
nothing. -/
def read (sensor : Sensor) (imu : ImuT F) : Fin 4 → F :=
  match sensor with
  | .rotationVector => ![imu.qx, imu.qy, imu.qz, imu.qw]
  | .gyroscope => ![imu.gx, imu.gy, imu.gz, imu.gz]
  | .linearAcceleration => ![imu.ax, imu.ay, imu.az, imu.az]

/-- The newest reading of a sensor. -/
def newest (sensor : Sensor) (vs : List (SensorValue F)) : Option (SensorValue F) :=
  vs.reverse.find? fun v => v.sensorId == sensor.id

/-- A reading replaces that of its sensor. -/
theorem read_readSensor (sensor : Sensor) (v : SensorValue F) (imu : ImuT F) (gotRv : Bool)
    {i : Fin 4} (hi : i < sensor.words) :
    read sensor (readSensor v imu gotRv).1 i =
      if v.sensorId = sensor.id then v.un i else read sensor imu i := by
  by_cases hv : v.sensorId = sensor.id
  · rw [if_pos hv]
    cases sensor with
    | rotationVector =>
      have hid : v.sensorId = 0x05 := hv
      rw [readSensor, if_pos hid]
      fin_cases i <;> rfl
    | gyroscope =>
      have hid : v.sensorId = 0x02 := hv
      rw [readSensor, hid, if_neg (by decide), if_pos rfl]
      fin_cases i
      exacts [rfl, rfl, rfl, absurd hi (by decide)]
    | linearAcceleration =>
      have hid : v.sensorId = 0x04 := hv
      rw [readSensor, hid, if_neg (by decide), if_neg (by decide), if_pos rfl]
      fin_cases i
      exacts [rfl, rfl, rfl, absurd hi (by decide)]
  · rw [if_neg hv, readSensor]
    cases sensor with
    | rotationVector =>
      have hid : v.sensorId ≠ 0x05 := hv
      rw [if_neg hid]
      split_ifs <;> rfl
    | gyroscope =>
      have hid : v.sensorId ≠ 0x02 := hv
      rw [if_neg hid]
      split_ifs <;> rfl
    | linearAcceleration =>
      have hid : v.sensorId ≠ 0x04 := hv
      rw [if_neg hid]
      split_ifs <;> rfl

/-- **A record has the newest reading of each sensor.** -/
theorem read_record (sensor : Sensor) (imu : ImuT F) (vs : List (SensorValue F)) {i : Fin 4}
    (hi : i < sensor.words) :
    read sensor (record imu vs) i =
      (newest sensor vs).elim (read sensor imu i) fun v => v.un i := by
  induction vs using List.reverseRecOn with
  | nil => rfl
  | append_singleton vs v ih =>
    have hconcat : record imu (vs ++ [v]) = (readSensor v (record imu vs) false).1 := by
      rw [record_append]
      rfl
    rw [hconcat, read_readSensor sensor v _ _ hi, ih, newest, newest, List.reverse_append,
      List.reverse_singleton, List.singleton_append, List.find?_cons]
    by_cases hv : v.sensorId = sensor.id
    · simp [hv]
    · simp [hv, beq_false_of_ne hv]

/-! ### Core 1 -/

/-- A service leaves the value of one of its events, or none. -/
theorem service_cases (d : Bno08x F) (ns : List (Note F)) :
    (d.service ns).sensorValue = d.sensorValue ∨ (d.service ns).sensorValue.timestamp = 0 ∨
      (d.service ns).sensorValue ∈ ns.filterMap valueOf := by
  induction ns using List.reverseRecOn with
  | nil => exact .inl rfl
  | append_singleton ns n ih =>
    have hconcat : d.service (ns ++ [n]) = (d.service ns).callback n := List.foldl_concat ..
    rw [hconcat, List.filterMap_append]
    cases n with
    | sensor e =>
      by_cases he : e.reportId ∈ decodableIds
      · refine .inr (.inr (List.mem_append_right _ ?_))
        simp [Bno08x.callback, Bno08x.sensorHandler, decodeSensorEvent, he, valueOf]
      · refine .inr (.inl ?_)
        simp [Bno08x.callback, Bno08x.sensorHandler, decodeSensorEvent, he]
    | resetComplete =>
      exact ih.imp_right (Or.imp_right fun hmem => List.mem_append_left _ hmem)

/-- A reading is one that the driver has heard of in the same call, unless its sensor is not
enabled. -/
theorem mem_of_enabled {d : Bno08x F} {ns : List (Note F)}
    (hevent : (d.getSensorEvent ns).1 = true)
    (henabled : enabled (d.getSensorEvent ns).2.sensorValue = true) :
    (d.getSensorEvent ns).2.sensorValue ∈ ns.filterMap valueOf := by
  have htime : (d.getSensorEvent ns).2.sensorValue.timestamp ≠ 0 := by
    intro hzero
    have hid : (d.getSensorEvent ns).2.sensorValue.sensorId ≠ gyroIntegratedRv := by
      intro hid
      rw [enabled, hid] at henabled
      exact absurd henabled (by decide)
    rw [Bno08x.getSensorEvent_snd] at hid hzero
    rw [Bno08x.getSensorEvent, if_pos ⟨hzero, hid⟩] at hevent
    cases hevent
  rw [Bno08x.getSensorEvent_snd] at htime ⊢
  rcases service_cases { d with sensorValue := { d.sensorValue with timestamp := 0 } } ns with
    hsame | hzero | hmem
  · exact absurd (by rw [hsame]) htime
  · exact absurd hzero htime
  · exact hmem

/-- What is known of core 1, which has started with the record `imu₀`. -/
structure Records (imu₀ : ImuT F) (tr : Trace F) (s : State F) : Prop where
  imu : s.imu = record imu₀ tr.readings
  gotRv : s.gotRv = true ↔ HasRv tr.current
  pushed : s.pushed = pushes imu₀ tr.ended
  heard : (tr.readings.filter enabled).Sublist (tr.heard.filterMap valueOf)

/-- What a reading does to the record does not depend on what `got_rv` was. -/
theorem readSensor_fst (v : SensorValue F) (imu : ImuT F) (gotRv : Bool) :
    (readSensor v imu gotRv).1 = (readSensor v imu false).1 := by
  unfold readSensor
  split_ifs <;> rfl

theorem readSensor_snd (v : SensorValue F) (imu : ImuT F) (gotRv : Bool) :
    (readSensor v imu gotRv).2 = true ↔ gotRv = true ∨ v.sensorId = Sensor.rotationVector.id := by
  have hid : Sensor.rotationVector.id = 0x05 := rfl
  rw [hid, readSensor]
  split_ifs with h5 h2 h4 <;> simp [h5]

/-- The body of the loop reads one sensor. -/
theorem body_eq (s : State F) :
    s.body.imu = (readSensor s.driver.sensorValue s.imu false).1 ∧
      s.body.gotRv = (readSensor s.driver.sensorValue s.imu s.gotRv).2 ∧
      s.body.pushed = s.pushed := by
  rw [← readSensor_fst s.driver.sensorValue s.imu s.gotRv, State.body]
  cases s.driver.wasReset with
  | mk reset d => cases reset <;> exact ⟨rfl, rfl, rfl⟩

/-- Notifications that leave no reading may come. -/
theorem heard_append {tr : Trace F} (ns : List (Note F))
    (h : (tr.readings.filter enabled).Sublist (tr.heard.filterMap valueOf)) :
    (tr.readings.filter enabled).Sublist ((tr.heard ++ ns).filterMap valueOf) := by
  rw [List.filterMap_append]
  exact h.trans (List.sublist_append_left _ _)

/-- **A step keeps the records of the trace.** -/
theorem records_step {imu₀ : ImuT F} {tr : Trace F} {s t : State F} {a : Imu.Act F}
    (h : Records imu₀ tr s) (ht : Imu.step s a = some t) : Records imu₀ (tr.next s a) t := by
  cases a with
  | poll ns =>
    simp only [Imu.step] at ht
    split at ht
    · have hmem := @mem_of_enabled F s.driver ns
      rw [Trace.next]
      rcases hget : s.driver.getSensorEvent ns with ⟨event, d⟩
      rw [hget] at ht hmem
      cases event with
      | true =>
        obtain rfl := Option.some.inj ht
        obtain ⟨himu, hgotRv, hpushed⟩ := body_eq _
        refine ⟨himu.trans ?_, ?_, hpushed.trans h.pushed, ?_⟩
        · rw [Trace.readings, ← List.append_assoc, record_append, h.imu]
          rfl
        · rw [hgotRv, readSensor_snd, h.gotRv]
          simp [HasRv, or_and_right, exists_or]
        · rw [Trace.readings, ← List.append_assoc, List.filter_append, List.filterMap_append]
          refine h.heard.append ?_
          by_cases henabled : enabled d.sensorValue = true
          · rw [List.filter_cons_of_pos henabled, List.filter_nil, List.singleton_sublist]
            exact hmem rfl henabled
          · rw [List.filter_cons_of_neg henabled, List.filter_nil]
            exact List.nil_sublist _
      | false =>
        obtain rfl := Option.some.inj ht
        refine ⟨?_, ?_, ?_, ?_⟩
        · simp [State.endIteration, h.imu, Trace.readings]
        · simp [State.endIteration, HasRv]
        · simp only [State.endIteration, pushes_concat, h.pushed, h.imu, h.gotRv, Trace.readings]
          split_ifs <;> simp
        · have hreadings : Trace.readings ⟨tr.heard ++ ns, tr.ended ++ [tr.current], []⟩ =
              tr.readings := by
            simp [Trace.readings]
          rw [hreadings]
          exact heard_append ns h.heard
    · cases ht
  | nack ns =>
    simp only [Imu.step] at ht
    split at ht
    · obtain rfl := Option.some.inj ht
      exact ⟨h.imu, h.gotRv, h.pushed, heard_append ns h.heard⟩
    · cases ht
  | ack =>
    simp only [Imu.step] at ht
    split at ht
    · split at ht <;> obtain rfl := Option.some.inj ht <;>
        exact ⟨h.imu, h.gotRv, h.pushed, h.heard⟩
    · cases ht

/-- A step pushes at most one record. -/
theorem pushed_step {s t : State F} {a : Imu.Act F} (ht : Imu.step s a = some t) :
    t.pushed = s.pushed ++ t.pushed[s.pushed.length]?.toList := by
  have hsame (h : t.pushed = s.pushed) :
      t.pushed = s.pushed ++ t.pushed[s.pushed.length]?.toList := by
    rw [h, List.getElem?_eq_none le_rfl]
    exact (List.append_nil _).symm
  cases a with
  | poll ns =>
    simp only [Imu.step] at ht
    split at ht
    · split at ht
      · obtain rfl := Option.some.inj ht
        exact hsame (body_eq _).2.2
      · obtain rfl := Option.some.inj ht
        simp only [State.endIteration]
        split_ifs <;> simp
    · cases ht
  | nack ns =>
    simp only [Imu.step] at ht
    split at ht
    · obtain rfl := Option.some.inj ht
      exact hsame rfl
    · cases ht
  | ack =>
    simp only [Imu.step] at ht
    split at ht
    · split at ht <;> obtain rfl := Option.some.inj ht <;> exact hsame rfl
    · cases ht

/-! ### The two cores -/

structure System (F : Type) where
  core1 : State F
  trace : Trace F
  /-- `q_imu`. -/
  channel : LatestQueue.State 8 (ImuT F)
  publisher : Publisher F

/-- The start of the loops, with any contents of `imu` and of the message. -/
def System.init (imu₀ : ImuT F) (un : Fin 4 → F) (resetOccurred : Bool) (imuMsg : ImuMsg F) :
    System F where
  core1 := .start imu₀ un resetOccurred
  trace := {}
  channel := {}
  publisher := { imuMsg }

/-- `core1` is a step of core 1, up to the call of `queue_push_latest` if it makes one, and `push`
the next queue call inside it. `get` enters `queue_try_get_latest` on core 0, `remove` is its next
queue call, and `publish` runs the block on the record that it returned. -/
inductive Act (F : Type) where
  | core1 (a : Imu.Act F)
  | push
  | get
  | remove
  | publish (now : Option ℤ)

def step (s : System F) : Act F → Option (System F)
  | .core1 a =>
    match s.channel.producer, Imu.step s.core1 a with
    | .idle, some core1 =>
      let t := { s with core1 := core1, trace := s.trace.next s.core1 a }
      match core1.pushed[s.core1.pushed.length]? with
      | none => some t
      | some imu => (LatestQueue.step s.channel (.push imu)).map fun ch => { t with channel := ch }
    | _, _ => none
  | .push => (LatestQueue.produce s.channel).map fun ch => { s with channel := ch }
  | .get => (LatestQueue.step s.channel .get).map fun ch => { s with channel := ch }
  | .remove => (LatestQueue.consume s.channel).map fun ch => { s with channel := ch }
  | .publish now =>
    match s.channel.consumer with
    | .got e =>
      (LatestQueue.step s.channel .use).map fun ch =>
        { s with channel := ch, publisher := publishImu now e s.publisher }
    | _ => none

/-! ### The invariant -/

/-- A message shows a record, under the number of its push. -/
def Shows (e : Tagged (ImuT F)) (m : Tagged (ImuMsg F)) : Prop :=
  m.tag = e.tag ∧ ∃ stamp, m.val = imuMsgOf stamp e.val

/-- What holds in every reachable state. -/
structure Inv (imu₀ : ImuT F) (s : System F) : Prop where
  channel : LatestQueue.Inv s.channel
  records : Records imu₀ s.trace s.core1
  pushed : s.channel.pushed = s.core1.pushed
  imus : LatestQueue.Shown Shows s.channel s.publisher.imus

theorem inv_init (imu₀ : ImuT F) (un : Fin 4 → F) (resetOccurred : Bool) (imuMsg : ImuMsg F) :
    Inv imu₀ (.init imu₀ un resetOccurred imuMsg) where
  channel := LatestQueue.inv_init
  records := ⟨rfl, by simp [HasRv, System.init, State.start], rfl, List.nil_sublist _⟩
  pushed := rfl
  imus := ⟨[], List.Sublist.refl _, .nil⟩

theorem inv_core1 {imu₀ : ImuT F} {s t : System F} {a : Imu.Act F} (h : Inv imu₀ s)
    (ht : step s (.core1 a) = some t) : Inv imu₀ t := by
  simp only [step] at ht
  split at ht
  · next core1 _ hcore1 =>
    have hrecords := records_step h.records hcore1
    have hpushed := pushed_step hcore1
    split at ht
    · next hnone =>
      obtain rfl := Option.some.inj ht
      rw [hnone, Option.toList_none, List.append_nil] at hpushed
      exact ⟨h.channel, hrecords, h.pushed.trans hpushed.symm, h.imus⟩
    · next imu himu =>
      obtain ⟨ch, hch, rfl⟩ := Option.map_eq_some_iff.mp ht
      have hinv := LatestQueue.inv_step (by decide) _ _ _ h.channel hch
      have himus := h.imus.step hch
      have hchannel : ch.pushed = s.channel.pushed ++ [imu] := by
        simp only [LatestQueue.step] at hch
        split at hch <;> cases hch
        rfl
      rw [himu] at hpushed
      refine ⟨hinv, hrecords, ?_, himus⟩
      rw [hchannel, h.pushed, hpushed]
      rfl
  · cases ht

theorem inv_publish {imu₀ : ImuT F} {s t : System F} {now : Option ℤ} (h : Inv imu₀ s)
    (ht : step s (.publish now) = some t) : Inv imu₀ t := by
  simp only [step] at ht
  split at ht
  · next e he =>
    obtain ⟨ch, hch, rfl⟩ := Option.map_eq_some_iff.mp ht
    have hinv := LatestQueue.inv_step (by decide) _ _ _ h.channel hch
    have hpushed : ch.pushed = s.channel.pushed := by
      simp only [LatestQueue.step, he, Option.some.injEq] at hch
      rw [← hch]
    refine ⟨hinv, h.records, hpushed.trans h.pushed, ?_⟩
    cases now with
    | none => exact h.imus.step hch
    | some ns => exact h.imus.use he ⟨rfl, stampFromRosTime ns, rfl⟩ hch
  · cases ht

theorem inv_step (imu₀ : ImuT F) (s : System F) (a : Act F) (t : System F) (h : Inv imu₀ s)
    (ht : step s a = some t) : Inv imu₀ t := by
  cases a with
  | core1 a => exact inv_core1 h ht
  | push =>
    obtain ⟨ch, hch, rfl⟩ := Option.map_eq_some_iff.mp ht
    obtain ⟨hpushed, -, -⟩ := LatestQueue.produce_frame hch
    exact ⟨LatestQueue.inv_produce (by decide) h.channel hch, h.records, hpushed.trans h.pushed,
      h.imus.step (a := .produce) hch⟩
  | get =>
    obtain ⟨ch, hch, rfl⟩ := Option.map_eq_some_iff.mp ht
    have hinv := LatestQueue.inv_step (by decide) _ _ _ h.channel hch
    have himus := h.imus.step hch
    simp only [LatestQueue.step] at hch
    split at hch <;> cases hch
    exact ⟨hinv, h.records, h.pushed, himus⟩
  | remove =>
    obtain ⟨ch, hch, rfl⟩ := Option.map_eq_some_iff.mp ht
    obtain ⟨hpushed, -, -⟩ := LatestQueue.consume_frame hch
    exact ⟨LatestQueue.inv_consume h.channel hch, h.records, hpushed.trans h.pushed,
      h.imus.step (a := .consume) hch⟩
  | publish now => exact inv_publish h ht

/-- Every state of every interleaving satisfies the invariant. -/
theorem inv_run {imu₀ : ImuT F} {un : Fin 4 → F} {resetOccurred : Bool} {imuMsg : ImuMsg F}
    {as : List (Act F)} {s : System F}
    (h : Machine.run step (.init imu₀ un resetOccurred imuMsg) as = some s) : Inv imu₀ s :=
  Machine.inv_of_run (inv_step imu₀) (inv_init imu₀ un resetOccurred imuMsg) h

/-! ### Freshness -/

/-- A record pushed is that of an iteration with a rotation vector, and has the number of such
iterations before it. -/
theorem exists_iteration {imu₀ imu : ImuT F} {its : List (List (SensorValue F))} {n : ℕ}
    (h : (pushes imu₀ its)[n]? = some imu) :
    ∃ past vs rest, its = past ++ vs :: rest ∧ HasRv vs ∧ n = past.countP (HasRv ·) ∧
      imu = record imu₀ (past.flatten ++ vs) := by
  induction its generalizing imu₀ n with
  | nil => cases h
  | cons vs its ih =>
    rw [pushes] at h
    by_cases hrv : HasRv vs
    · rw [if_pos hrv] at h
      cases n with
      | zero => exact ⟨[], vs, its, rfl, hrv, rfl, (Option.some.inj h).symm⟩
      | succ n =>
        obtain ⟨past, ws, rest, rfl, hws, rfl, rfl⟩ := ih h
        refine ⟨vs :: past, ws, rest, rfl, hws, by simp [hrv], ?_⟩
        rw [List.flatten_cons, List.append_assoc, record_append imu₀ vs]
    · rw [if_neg hrv, List.nil_append] at h
      obtain ⟨past, ws, rest, rfl, hws, rfl, rfl⟩ := ih h
      refine ⟨vs :: past, ws, rest, rfl, hws, by simp [hrv], ?_⟩
      rw [List.flatten_cons, List.append_assoc, record_append imu₀ vs]

/-- The reading of a sensor in a message. -/
def ImuMsg.read (sensor : Sensor) (m : ImuMsg F) : Fin 4 → F :=
  match sensor with
  | .rotationVector => ![m.orientation.x, m.orientation.y, m.orientation.z, m.orientation.w]
  | .gyroscope =>
    ![m.angularVelocity.x, m.angularVelocity.y, m.angularVelocity.z, m.angularVelocity.z]
  | .linearAcceleration =>
    ![m.linearAcceleration.x, m.linearAcceleration.y, m.linearAcceleration.z,
      m.linearAcceleration.z]

theorem read_imuMsgOf (sensor : Sensor) (stamp : Time) (imu : ImuT F) :
    (imuMsgOf stamp imu).read sensor = read sensor imu := by
  cases sensor <;> rfl

/-- The message shows the newest readings at the end of an iteration of `its` with a rotation
vector. Its number is that of such iterations before. -/
def FromIteration (imu₀ : ImuT F) (its : List (List (SensorValue F))) (m : Tagged (ImuMsg F)) :
    Prop :=
  ∃ past vs rest, its = past ++ vs :: rest ∧ HasRv vs ∧ m.tag = past.countP (HasRv ·) ∧
    ∀ (sensor : Sensor) (i : Fin 4), i < sensor.words →
      m.val.read sensor i =
        (newest sensor (past.flatten ++ vs)).elim (read sensor imu₀ i) fun v => v.un i

/-- What the messages of a state have to do with what core 1 has heard of. -/
structure Freshness (imu₀ : ImuT F) (s : System F) : Prop where
  /-- Readings of enabled sensors were heard of, each of them as often as it was read, in this
  order. -/
  readings : (s.trace.readings.filter enabled).Sublist (s.trace.heard.filterMap valueOf)
  /-- The records pushed are those of the iterations with a rotation vector. -/
  pushed : s.channel.pushed = pushes imu₀ s.trace.ended
  messages : ∀ m ∈ s.publisher.imus, FromIteration imu₀ s.trace.ended m
  /-- Later messages are those of later iterations. -/
  order : s.publisher.imus.Pairwise fun m m' => m.tag < m'.tag

/-- **Provenance and freshness** of the messages, for all that the hub sends and every interleaving
of the cores. -/
theorem imus_fresh {imu₀ : ImuT F} {un : Fin 4 → F} {resetOccurred : Bool} {imuMsg : ImuMsg F}
    {as : List (Act F)} {s : System F}
    (h : Machine.run step (.init imu₀ un resetOccurred imuMsg) as = some s) :
    Freshness imu₀ s := by
  have hinv := inv_run h
  have hpushed := hinv.pushed.trans hinv.records.pushed
  obtain ⟨used, hsub, hshows⟩ := hinv.imus.pushed hinv.channel
  have htags : s.publisher.imus.map Tagged.tag = used.map Tagged.tag := by
    rw [← List.forall₂_eq_eq_eq, List.forall₂_map_left_iff, List.forall₂_map_right_iff]
    exact (hshows.imp fun e m hm => hm.1.symm).flip.imp fun _ _ h => h.symm
  refine ⟨hinv.records.heard, hpushed, fun m hm => ?_, ?_⟩
  · obtain ⟨i, hi, rfl⟩ := List.getElem_of_mem hm
    have hi' : i < used.length := hshows.length_eq ▸ hi
    obtain ⟨htag, stamp, hval⟩ : Shows used[i] s.publisher.imus[i] := hshows.get hi' hi
    have hget := LatestQueue.mem_tagAll.mp (hsub.subset (List.getElem_mem hi'))
    rw [hpushed] at hget
    obtain ⟨past, vs, rest, hits, hrv, hn, himu⟩ := exists_iteration hget
    refine ⟨past, vs, rest, hits, hrv, htag.trans hn, fun sensor i hi => ?_⟩
    rw [hval, read_imuMsgOf, himu, read_record sensor imu₀ _ hi]
  · rw [← List.pairwise_map (R := (· < ·)), htags, List.pairwise_map]
    exact (LatestQueue.pairwise_tag_tagAll _).sublist hsub

/-- A record and a message to start with. -/
def noImu : ImuT ℚ := ⟨0, 0, 0, 0, 0, 0, 0, 0, 0, 0⟩

def noImuMsg : ImuMsg ℚ := ⟨⟨0, 0⟩, ⟨0, 0, 0, 0⟩, ⟨0, 0, 0⟩, ⟨0, 0, 0⟩⟩

/-- Core 1 reads an acceleration, and two rotation vectors in one call. The record is pushed at the
end of the iteration, taken and published. -/
def oneIteration : List (Act ℚ) :=
  [.core1 (.poll [.sensor ⟨0x04, 7, fun _ => 9⟩]),
    .core1 (.poll [.sensor ⟨0x05, 8, fun _ => 1⟩, .sensor ⟨0x05, 9, fun _ => 1 / 2⟩]),
    .core1 (.poll []), .push, .get, .remove, .remove, .publish (some 1500000000)]

theorem imus_fresh_oneIteration :
    ∃ s, Machine.run step (.init noImu (fun _ => 0) false noImuMsg) oneIteration = some s ∧
      s.publisher.imus.map (fun m => (m.tag, m.val.orientation.w, m.val.linearAcceleration.x)) =
        [(0, 1 / 2, 9)] ∧ Freshness noImu s := by
  have hrun : (Machine.run step (.init noImu (fun _ => 0) false noImuMsg) oneIteration).map
      (fun s => s.publisher.imus.map
        fun m => (m.tag, m.val.orientation.w, m.val.linearAcceleration.x)) =
          some [(0, 1 / 2, 9)] := by
    decide +kernel
  obtain ⟨s, hs, himus⟩ := Option.map_eq_some_iff.mp hrun
  exact ⟨s, hs, himus, imus_fresh hs⟩

end PicoUros.Imu.Publish
