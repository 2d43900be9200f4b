import PicoUros.Imu.Messages

/-!
# The reports of the sensor hub

A message for an input channel is a list of reports. `sensorhubInputHdlr` (`sh2.c`, lines 542–592)
takes the length of a report from the table of the last advertisement, and calls the sensor callback
for each sensor report. The time of a sensor report is given in units of 100 µs: its delay, counted
from a reference that the other reports of the message move.

A report whose id is not in the table ends the message.

## Main definitions

* `InputReport`, `InputReport.bytes`: the reports, and their bytes.
* `InputReport.Valid`: the table has the length of the report.
* `eventsOf`: the events for a list of reports.
* `Means`: what a message of the hub means to the driver.

## Main results

* `Sh2.inputLoop_reports`: the handler calls back for the events of the reports.
* `Client.reports_delivered`: in every run the driver is called once for each sensor report that the
  hub sends, in their order and with their times.
-/

namespace PicoUros.Imu

open Fragment

/-! ### Reports -/

/-- A sensor report: its delay has 14 bits, and shares a byte with the status. -/
structure SensorReport where
  id : UInt8
  seq : UInt8
  status : ℕ
  delay : ℕ
  data : List UInt8
  id_ne : id ≠ 0xFB ∧ id ≠ 0xFA ∧ id ≠ 0xEF
  status_lt : status < 4
  delay_lt : delay < 2 ^ 14

/-- A report on an input channel: a reference for the times, a change of it, the end of a flush, or
a reading. -/
inductive InputReport where
  | base (timebase : UInt32)
  | rebase (timebase : UInt32)
  | flushCompleted (sensorId : UInt8)
  | sensor (r : SensorReport)

def SensorReport.bytes (r : SensorReport) : List UInt8 :=
  r.id :: r.seq :: UInt8.ofNat (r.delay / 256 * 4 + r.status) :: UInt8.ofNat r.delay :: r.data

namespace InputReport

def bytes : InputReport → List UInt8
  | .base timebase => 0xFB :: leBytes 4 timebase.toNat
  | .rebase timebase => 0xFA :: leBytes 4 timebase.toNat
  | .flushCompleted sensorId => [0xEF, sensorId]
  | .sensor r => r.bytes

/-- The table has the length of the report, and an event has room for a reading. -/
def Valid (s : Sh2) (r : InputReport) : Prop :=
  (∃ id rest, r.bytes = id :: rest ∧ s.getReportLen id = r.bytes.length) ∧
    ∀ x, r = .sensor x → x.bytes.length ≤ maxSensorEventLen

/-- The time of a report, for the time `t` of its message and the reference `delta`. -/
def stamp (rollovers t delta : UInt32) (delay : ℕ) : UInt64 :=
  rollovers.toUInt64 <<< 32 + (t + (delta + UInt32.ofNat delay) * 100).toUInt64

/-- The reference behind a report. -/
def reference (delta : UInt32) : InputReport → UInt32
  | .base timebase => -timebase
  | .rebase timebase => delta + timebase
  | .flushCompleted _ => delta
  | .sensor _ => delta

/-- The event of a report, if it is a reading. -/
def events (rollovers t delta : UInt32) : InputReport → List RawEvent
  | .sensor r => [⟨r.id, stamp rollovers t delta r.delay, r.bytes⟩]
  | _ => []

end InputReport

/-- The events of a list of reports. -/
def eventsOf (rollovers t : UInt32) : UInt32 → List InputReport → List RawEvent
  | _, [] => []
  | delta, r :: rs => r.events rollovers t delta ++ eventsOf rollovers t (r.reference delta) rs

/-- The bits of the delay are put together again. -/
theorem delay_bytes (r : SensorReport) :
    Sh2.delay (UInt8.ofNat (r.delay / 256 * 4 + r.status)) (UInt8.ofNat r.delay) =
      UInt16.ofNat r.delay := by
  have hstatus := r.status_lt
  have hdelay := r.delay_lt
  have hand : ∀ n < 256, (UInt8.ofNat n &&& 0xFC).toNat = n / 4 * 4 := by decide +kernel
  have hshift : 2 ^ (UInt16.toNat 6 % 16) = 64 := rfl
  apply UInt16.toNat_inj.mp
  have hhigh := hand (r.delay / 256 * 4 + r.status) (by omega)
  simp only [Sh2.delay, UInt16.toNat_add, UInt16.toNat_shiftLeft, UInt8.toNat_toUInt16, hhigh,
    UInt8.toNat_ofNat', UInt16.toNat_ofNat', Nat.shiftLeft_eq, hshift]
  omega

namespace InputReport

theorem length_bytes_pos (r : InputReport) : 0 < r.bytes.length := by
  cases r <;> exact Nat.succ_pos _

theorem length_le_bytes (rs : List InputReport) :
    rs.length ≤ (rs.flatMap InputReport.bytes).length := by
  induction rs with
  | nil => exact le_rfl
  | cons r rs ih =>
    have hpos := r.length_bytes_pos
    rw [List.flatMap_cons, List.length_append, List.length_cons]
    omega

theorem Valid.congr {s t : Sh2} {r : InputReport} (h : r.Valid s) (ht : t.report = s.report) :
    r.Valid t := by
  obtain ⟨⟨id, rest, hbytes, hlen⟩, hevent⟩ := h
  exact ⟨⟨id, rest, hbytes, by rw [← hlen, Sh2.getReportLen, Sh2.getReportLen, ht]⟩, hevent⟩

end InputReport

/-- A rotation vector of which all components are 1/2. -/
def halfQuaternion : SensorReport where
  id := 0x05
  seq := 0
  status := 3
  delay := 7
  data := [0, 0x20, 0, 0x20, 0, 0x20, 0, 0x20, 0, 0]
  id_ne := by decide
  status_lt := by decide
  delay_lt := by decide

/-! ### The input handler -/

namespace Sh2

variable {s : Sh2} {t : UInt32} (delta : UInt32) {cursor : ℕ}

/-- The time of a reading, when the clock stands at the time of the message. -/
theorem touSTimestamp_eq (hclock : s.lastHostInt = t) (delay : ℕ) :
    s.touSTimestamp t delta (UInt16.ofNat delay) =
      (InputReport.stamp s.rollovers t delta (delay % 2 ^ 16), s) := by
  subst hclock
  have hlt : ¬ s.lastHostInt < s.lastHostInt := by simp
  have hdelay : (UInt16.ofNat delay).toUInt32 = UInt32.ofNat (delay % 2 ^ 16) := by
    apply UInt32.toNat_inj.mp
    rw [UInt16.toNat_toUInt32, UInt16.toNat_ofNat', UInt32.toNat_ofNat']
    omega
  simp only [touSTimestamp, if_neg hlt, hdelay, InputReport.stamp]

theorem opRx_flush {b : UInt8} (hb : s.shtp.inPayload.elems[cursor]? = some b) (hne : b ≠ 0xF8) :
    s.opRx cursor = some s := by
  unfold opRx
  split
  · rfl
  · simp only [getProdIdRx, hb, Option.bind_some, if_pos hne]

theorem getElem?_of_drop {l rest : List UInt8} {i : ℕ} {x : UInt8} (h : l.drop i = x :: rest) :
    l[i]? = some x := by
  rw [← Nat.add_zero i, ← List.getElem?_drop, h]
  rfl

/-- A report is read where it stands. -/
theorem read_of_drop {n : ℕ} {b : Buffer n UInt8} {i : ℕ} {l rest : List UInt8} (hl : l ≠ [])
    (h : b.elems.drop i = l ++ rest) : b.read i l.length = some l := by
  have hlen := congrArg List.length h
  rw [List.length_drop, List.length_append, b.length_elems] at hlen
  have hpos := List.length_pos_iff.mpr hl
  rw [Buffer.read_eq_some_iff, h, List.take_left]
  exact ⟨by omega, rfl⟩

/-- A number is read where it stands. -/
theorem readu16_of_drop {n : ℕ} {b : Buffer n UInt8} {i : ℕ} {x : UInt16} {rest : List UInt8}
    (h : b.elems.drop i = leBytes 2 x.toNat ++ rest) : b.readu16 i = some x := by
  have hne : leBytes 2 x.toNat ≠ [] := List.cons_ne_nil _ _
  have hread := read_of_drop hne h
  rw [length_leBytes] at hread
  rw [Buffer.readu16, hread, Option.map_some, leNat_leBytes,
    Nat.mod_eq_of_lt (show x.toNat < 256 ^ 2 from x.toNat_lt), UInt16.ofNat_toNat]

theorem readu32_of_drop {n : ℕ} {b : Buffer n UInt8} {i : ℕ} {x : UInt32} {rest : List UInt8}
    (h : b.elems.drop i = leBytes 4 x.toNat ++ rest) : b.readu32 i = some x := by
  have hne : leBytes 4 x.toNat ≠ [] := List.cons_ne_nil _ _
  have hread := read_of_drop hne h
  rw [length_leBytes] at hread
  rw [Buffer.readu32, hread, Option.map_some, leNat_leBytes,
    Nat.mod_eq_of_lt (show x.toNat < 256 ^ 4 from x.toNat_lt), UInt32.ofNat_toNat]

/-- What the loop does with a report. -/
theorem inputReport_eq {r : InputReport} {id : UInt8} {l rest : List UInt8}
    (hclock : s.lastHostInt = t) (hvalid : r.Valid s) (hid : r.bytes = id :: l)
    (hbytes : s.shtp.inPayload.elems.drop cursor = r.bytes ++ rest) :
    s.inputReport t cursor id r.bytes.length delta =
      some ((r.events s.rollovers t delta).foldl sensorEvent s, r.reference delta) := by
  have hget (i : ℕ) : s.shtp.inPayload.elems[cursor + i]? = (r.bytes ++ rest)[i]? := by
    rw [← hbytes, List.getElem?_drop]
  have hread4 (b : UInt8) (timebase : UInt32)
      (h : s.shtp.inPayload.elems.drop cursor = (b :: leBytes 4 timebase.toNat) ++ rest) :
      s.shtp.inPayload.readu32 (cursor + 1) = some timebase := by
    have hdrop : s.shtp.inPayload.elems.drop (cursor + 1) = leBytes 4 timebase.toNat ++ rest := by
      rw [← List.drop_drop, h]
      rfl
    exact readu32_of_drop hdrop
  cases r with
  | base timebase =>
    obtain rfl := (List.cons.inj hid).1
    simp only [inputReport, hread4 _ timebase hbytes]
    rfl
  | rebase timebase =>
    obtain rfl := (List.cons.inj hid).1
    simp only [inputReport, hread4 _ timebase hbytes]
    rfl
  | flushCompleted sensorId =>
    obtain rfl := (List.cons.inj hid).1
    have h0 : s.shtp.inPayload.elems[cursor]? = some 0xEF := hget 0
    simp only [inputReport, opRx_flush h0 (by decide)]
    rfl
  | sensor r =>
    obtain rfl := (List.cons.inj hid).1
    obtain ⟨hFB, hFA, hEF⟩ := r.id_ne
    have h2 : s.shtp.inPayload.elems[cursor + 2]? = _ := hget 2
    have h3 : s.shtp.inPayload.elems[cursor + 3]? = _ := hget 3
    have hread : s.shtp.inPayload.read cursor r.bytes.length = some r.bytes :=
      read_of_drop (List.cons_ne_nil _ _) hbytes
    have hevent : s.readEvent cursor r.bytes.length = some r.bytes := by
      rw [readEvent, if_pos (hvalid.2 r rfl), hread]
    have hsmall : r.delay % 2 ^ 16 = r.delay := Nat.mod_eq_of_lt (r.delay_lt.trans (by decide))
    have htime := touSTimestamp_eq delta hclock r.delay
    unfold inputReport
    split
    · exact absurd ‹_› hFB
    · exact absurd ‹_› hFA
    · exact absurd ‹_› hEF
    · simp only [h2, h3, InputReport.bytes, SensorReport.bytes, List.cons_append,
        List.getElem?_cons_succ, List.getElem?_cons_zero, Option.bind_eq_bind, Option.bind_some,
        delay_bytes, htime, hsmall]
      rw [← SensorReport.bytes, hevent]
      rfl

theorem foldl_sensorEvent (s : Sh2) (es : List RawEvent) :
    es.foldl sensorEvent s =
      { s with notes := s.notes ++ if s.sensorCallback then es.map HubNote.sensor else [] } := by
  induction es generalizing s with
  | nil => simp only [List.foldl_nil, List.map_nil, ite_self, List.append_nil]
  | cons e es ih =>
    rw [List.foldl_cons, ih, sensorEvent]
    cases hcb : s.sensorCallback with
    | false => simp only [hcb, Bool.false_eq_true, if_false]
    | true => simp only [if_true, List.map_cons, List.append_assoc, List.singleton_append]

/-- **The loop calls back for the events of the reports**, and an unknown id behind them ends it. -/
theorem inputLoop_reports {rs : List InputReport} {rest stale : List UInt8} {fuel : ℕ}
    (hclock : s.lastHostInt = t) (hvalid : ∀ r ∈ rs, r.Valid s)
    (hrest : ∀ id ∈ rest.head?, s.getReportLen id = 0)
    (hbytes : s.shtp.inPayload.elems.drop cursor =
      rs.flatMap InputReport.bytes ++ (rest ++ stale))
    (hfuel : rs.length + rest.length ≤ fuel) :
    inputLoop (cursor + (rs.flatMap InputReport.bytes ++ rest).length) t fuel s cursor delta =
      some ((eventsOf s.rollovers t delta rs).foldl sensorEvent s) := by
  induction rs generalizing s cursor delta fuel with
  | nil =>
    cases rest with
    | nil =>
      cases fuel with
      | zero => rfl
      | succ fuel => simp [inputLoop, eventsOf]
    | cons id rest =>
      cases fuel with
      | zero => simp at hfuel
      | succ fuel =>
        have hid := getElem?_of_drop hbytes
        have hlen := hrest id rfl
        simp [inputLoop, hid, hlen, eventsOf]
  | cons r rs ih =>
    cases fuel with
    | zero => simp at hfuel
    | succ fuel =>
      have hr := hvalid r List.mem_cons_self
      obtain ⟨id, l, hid, hlen⟩ := hr.1
      have hpos := r.length_bytes_pos
      rw [List.flatMap_cons, List.append_assoc] at hbytes
      have hget : s.shtp.inPayload.elems[cursor]? = some id := getElem?_of_drop (hid ▸ hbytes)
      have hreport := inputReport_eq delta hclock hr hid hbytes
      have hmore : cursor < cursor + ((r :: rs).flatMap InputReport.bytes ++ rest).length := by
        simp only [List.flatMap_cons, List.length_append]
        omega
      have hend : cursor + ((r :: rs).flatMap InputReport.bytes ++ rest).length =
          cursor + r.bytes.length + (rs.flatMap InputReport.bytes ++ rest).length := by
        simp only [List.flatMap_cons, List.length_append]
        omega
      have hsame := foldl_sensorEvent s (r.events s.rollovers t delta)
      unfold inputLoop
      rw [if_pos hmore, hget, Option.bind_some, hlen, if_neg hpos.ne', hreport, Option.bind_some,
        hend, ih, eventsOf, List.foldl_append]
      · rw [hsame]
      · rw [hsame]
        exact hclock
      · rw [hsame]
        exact fun x hx => (hvalid x (List.mem_cons_of_mem r hx)).congr rfl
      · rw [hsame]
        exact hrest
      · rw [hsame, ← List.drop_drop, hbytes, List.drop_left]
      · rw [List.length_cons] at hfuel
        omega

/-- The handler of the control channel changes only the operation in progress. -/
theorem controlLoop_eq {len fuel : ℕ} {u : Sh2} (h : controlLoop len fuel s cursor = some u) :
    u = { s with op := u.op } := by
  have hop {s u : Sh2} {cursor : ℕ} (h : s.opRx cursor = some u) : u = { s with op := u.op } := by
    unfold opRx at h
    split at h
    · exact Option.some.inj h ▸ rfl
    · unfold getProdIdRx at h
      obtain ⟨id, -, h⟩ := Option.bind_eq_some_iff.mp h
      split_ifs at h
      · exact Option.some.inj h ▸ rfl
      · obtain ⟨resp, -, rfl⟩ := Option.map_eq_some_iff.mp h
        rfl
  induction fuel generalizing s cursor with
  | zero => exact Option.some.inj h ▸ rfl
  | succ fuel ih =>
    unfold controlLoop at h
    split_ifs at h
    · obtain ⟨id, -, h⟩ := Option.bind_eq_some_iff.mp h
      split_ifs at h
      · exact Option.some.inj h ▸ rfl
      · obtain ⟨v, hv, h⟩ := Option.bind_eq_some_iff.mp h
        obtain ⟨w, hw, hop'⟩ := Option.bind_eq_some_iff.mp hv
        rw [readResponse_eq hw] at hop'
        rw [ih h, hop hop']
    · exact Option.some.inj h ▸ rfl

end Sh2

/-! ### Messages -/

/-- What a message for the function of a channel means to the driver: with the table and the clock
of `s`, and for the time `t`. -/
inductive Means (s : Sh2) (t : UInt32) : Callback → List UInt8 → List HubNote → Prop
  | control (message : List UInt8) : Means s t .sensorhubControlHdlr message []
  | resetComplete : Means s t .executableDeviceHdlr [1] [.resetComplete]
  | device {message : List UInt8} (h : message ≠ [1]) : Means s t .executableDeviceHdlr message []
  | input {cb : Callback} (hcb : cb = .sensorhubInputNormalHdlr ∨ cb = .sensorhubInputWakeHdlr)
      {rs : List InputReport} {rest : List UInt8} (hvalid : ∀ r ∈ rs, r.Valid s)
      (hrest : ∀ id ∈ rest.head?, s.getReportLen id = 0) :
      Means s t cb (rs.flatMap InputReport.bytes ++ rest)
        ((eventsOf s.rollovers t 0 rs).map .sensor)

/-- The driver has heard of the notifications `ns` between `s` and `u`. -/
structure Hears (s : Sh2) (ns : List HubNote) (u : Sh2) : Prop where
  notes : u.notes = s.notes ++ ns
  report : u.report = s.report
  sensorCallback : s.sensorCallback = true → u.sensorCallback = true
  lastHostInt : u.lastHostInt = s.lastHostInt
  rollovers : u.rollovers = s.rollovers

theorem Hears.of_unheard {s u : Sh2} (h : s.Unheard u) : Hears s [] u :=
  ⟨h.notes.trans (List.append_nil _).symm, h.report, h.sensorCallback, h.lastHostInt, h.rollovers⟩

/-- A function that changes nothing of this but the notifications. -/
theorem Hears.of_notes {s u : Sh2} {ns : List HubNote} (hnotes : u.notes = s.notes ++ ns)
    (h : u = { s with
      shtp := u.shtp
      resetComplete := u.resetComplete
      op := u.op
      calls := u.calls
      notes := u.notes }) : Hears s ns u :=
  ⟨hnotes, by rw [h], fun hcb => by rw [h]; exact hcb, by rw [h], by rw [h]⟩

theorem Hears.trans {s u v : Sh2} {ns ns' : List HubNote} (h : Hears s ns u) (h' : Hears u ns' v) :
    Hears s (ns ++ ns') v :=
  ⟨by rw [h'.notes, h.notes, List.append_assoc], h'.report.trans h.report,
    h'.sensorCallback ∘ h.sensorCallback, h'.lastHostInt.trans h.lastHostInt,
    h'.rollovers.trans h.rollovers⟩

/-- The meaning of a message depends only on the table, and on the upper part of the clock. -/
theorem Means.congr {s u : Sh2} {t : UInt32} {cb : Callback} {message : List UInt8}
    {ns : List HubNote} (h : Means s t cb message ns) (hreport : u.report = s.report)
    (hclock : u.rollovers = s.rollovers) : Means u t cb message ns := by
  cases h with
  | control => exact .control message
  | resetComplete => exact .resetComplete
  | device h => exact .device h
  | input hcb hvalid hrest =>
    rw [← hclock]
    refine .input hcb (fun r hr => (hvalid r hr).congr hreport) fun id hid => ?_
    rw [← hrest id hid, Sh2.getReportLen, Sh2.getReportLen, hreport]

/-- **The function of a channel calls the driver back for what the message means.** -/
theorem Means.call {s u : Sh2} {t : UInt32} {cb : Callback} {message : List UInt8}
    {ns : List HubNote} (hm : Means s t cb message ns) (hsensor : s.sensorCallback = true)
    (hclock : s.lastHostInt = t) (hmessage : s.shtp.message = message)
    (hcursor : s.shtp.inCursor = message.length) (htime : s.shtp.inTimestamp = t)
    (hu : s.call cb = some u) : Hears s ns u := by
  have helems : s.shtp.inPayload.elems.drop 0 =
      message ++ s.shtp.inPayload.elems.drop s.shtp.inCursor := by
    rw [← hmessage, Shtp.message, List.take_append_drop, List.drop_zero]
  cases hm with
  | control =>
    have heq := Sh2.controlLoop_eq hu
    exact .of_notes (by rw [heq, List.append_nil]) (by rw [heq])
  | resetComplete =>
    have hone : s.shtp.inCursor = 1 ∧ s.shtp.inPayload.elems[0]? = some 1 :=
      ⟨hcursor, Sh2.getElem?_of_drop helems⟩
    obtain rfl := Option.some.inj hu
    rw [Sh2.executableDeviceHdlr, if_pos hone]
    exact .of_notes rfl rfl
  | device h =>
    have hnot : ¬ (s.shtp.inCursor = 1 ∧ s.shtp.inPayload.elems[0]? = some 1) := by
      rintro ⟨hlen, hfirst⟩
      rw [hlen] at hcursor
      obtain ⟨b, rfl⟩ := List.length_eq_one_iff.mp hcursor.symm
      rw [Sh2.getElem?_of_drop helems] at hfirst
      exact h (by rw [Option.some.inj hfirst])
    obtain rfl := Option.some.inj hu
    rw [Sh2.executableDeviceHdlr, if_neg hnot]
    exact .of_notes (List.append_nil _).symm rfl
  | input hcb hvalid hrest =>
    rename_i rs rest
    have hcall : s.call cb = Sh2.sensorhubInputHdlr
        { s with calls := s.calls ++ [⟨cb, s.shtp.message, s.shtp.inTimestamp⟩] }
        s.shtp.inCursor s.shtp.inTimestamp := by
      rcases hcb with rfl | rfl <;> rfl
    have hfuel : rs.length + rest.length ≤ s.shtp.inCursor := by
      rw [hcursor, List.length_append]
      have hrs := InputReport.length_le_bytes rs
      omega
    have hloop := Sh2.inputLoop_reports (s := { s with
      calls := s.calls ++ [⟨cb, s.shtp.message, s.shtp.inTimestamp⟩] }) 0 hclock
      (fun r hr => (hvalid r hr).congr rfl) hrest (by rw [helems, List.append_assoc]) hfuel
    rw [Nat.zero_add, ← hcursor, htime] at hloop
    rw [hcall, Sh2.sensorhubInputHdlr, htime, hloop, Sh2.foldl_sensorEvent] at hu
    obtain rfl := Option.some.inj hu
    exact .of_notes (by simp only [hsensor, if_true]) rfl

/-! ### A run -/

/-- The call makes the driver hear of `ns`. -/
def Call.Means (s : Sh2) (c : Call) (ns : List HubNote) : Prop :=
  Imu.Means s c.timestamp c.callback c.payload ns ∧ c.timestamp = s.lastHostInt

theorem Call.Means.congr {s u : Sh2} {c : Call} {ns : List HubNote} (h : c.Means s ns)
    {ns' : List HubNote} (hu : Hears s ns' u) : c.Means u ns :=
  ⟨h.1.congr hu.report hu.rollovers, h.2.trans hu.lastHostInt.symm⟩

/-- What the driver hears of by a call. -/
theorem Sh2.Called.hears {s u : Sh2} {c : Call} {ns : List HubNote} (h : s.Called u (some c))
    (hsensor : s.sensorCallback = true) (hmeans : c.Means s ns) : Hears s ns u := by
  obtain ⟨v, w, hw, hmessage, hcursor, htime, hu, -⟩ := h
  obtain ⟨hm, hclock⟩ := hmeans
  have hcall := Means.call (s := { s with shtp := v }) (hm.congr rfl rfl) hsensor hclock.symm
    hmessage hcursor htime hw
  rw [hu]
  exact ⟨hcall.notes, hcall.report, hcall.sensorCallback, hcall.lastHostInt, hcall.rollovers⟩

/-- **The driver hears of what the calls mean**, in their order. -/
theorem Sh2.CalledAll.hears {s u : Sh2} {cs : List Call} (h : s.CalledAll cs u)
    (hsensor : s.sensorCallback = true) {heard : List (List HubNote)}
    (hmeans : List.Forall₂ (Call.Means s) cs heard) : Hears s heard.flatten u := by
  induction h generalizing heard with
  | refl s =>
    obtain rfl := List.forall₂_nil_left_iff.mp hmeans
    exact .of_notes (List.append_nil _).symm rfl
  | unheard hst _ ih =>
    have hheard := Hears.of_unheard hst
    exact hheard.trans
      (ih (hheard.sensorCallback hsensor) (hmeans.imp fun _ _ hc => hc.congr hheard))
  | @called s t u c cs hst _ ih =>
    cases c with
    | none =>
      have hheard : Hears s [] t :=
        .of_notes (by rw [hst.1]; exact (List.append_nil _).symm) (by rw [hst.1])
      exact hheard.trans
        (ih (hheard.sensorCallback hsensor) (hmeans.imp fun _ _ hc => hc.congr hheard))
    | some c =>
      obtain ⟨ns, heard', hc, hrest, rfl⟩ := List.forall₂_cons_left_iff.mp hmeans
      have hheard := hst.hears hsensor hc
      exact hheard.trans
        (ih (hheard.sensorCallback hsensor) (hrest.imp fun _ _ hc => hc.congr hheard))

namespace Client

variable {k l : Client}

/-- The driver hears of what the messages mean. -/
theorem hears_of_messages {as : List Act} {ms : List Message} {route : Fin 8 → Callback}
    {heard : Message → List HubNote} (hk : k.Reachable)
    (hms : as.filterMap Act.received = ms.flatMap Message.transfers)
    (hroute : ∀ m ∈ ms, m.chan.val < listeners.length ∧
      (k.sh2.shtp.chan m.chan).callback = some (route m.chan) ∧
      route m.chan ≠ .shtpCmdListener)
    (hsensor : k.sh2.sensorCallback = true)
    (htime : ∀ m ∈ ms, m.first.2 = k.sh2.lastHostInt)
    (hmeans : ∀ m ∈ ms, Means k.sh2 k.sh2.lastHostInt (route m.chan) m.bytes (heard m))
    (h : Machine.run step k as = some l) :
    k.sh2.CalledAll (ms.map fun m => ⟨route m.chan, m.bytes, m.first.2⟩) l.sh2 ∧
      Hears k.sh2 (ms.flatMap heard) l.sh2 := by
  have hcalls : List.Forall₂ (Call.Means k.sh2)
      (ms.map fun m => ⟨route m.chan, m.bytes, m.first.2⟩) (ms.map heard) := by
    rw [List.forall₂_map_left_iff, List.forall₂_map_right_iff, List.forall₂_same]
    exact fun m hm => ⟨by rw [htime m hm]; exact hmeans m hm, htime m hm⟩
  have hcalled := called_of_messages hk hms (fun m hm => ⟨(hroute m hm).1, (hroute m hm).2.1⟩)
    (fun m hm => (hroute m (List.mem_of_mem_dropLast hm)).2.2) h
  exact ⟨hcalled, hcalled.hears hsensor hcalls⟩

/-- **The driver is called back for what the messages of the hub mean**, once for each sensor report
and each reset, in their order: however the messages are cut, and whatever is being sent. -/
theorem reports_delivered {as : List Act} {ms : List Message} {route : Fin 8 → Callback}
    {heard : Message → List HubNote} (hk : k.Reachable)
    (hms : as.filterMap Act.received = ms.flatMap Message.transfers)
    (hroute : ∀ m ∈ ms, m.chan.val < listeners.length ∧
      (k.sh2.shtp.chan m.chan).callback = some (route m.chan) ∧
      route m.chan ≠ .shtpCmdListener)
    (hsensor : k.sh2.sensorCallback = true)
    (htime : ∀ m ∈ ms, m.first.2 = k.sh2.lastHostInt)
    (hmeans : ∀ m ∈ ms, Means k.sh2 k.sh2.lastHostInt (route m.chan) m.bytes (heard m))
    (h : Machine.run step k as = some l) :
    l.sh2.notes = k.sh2.notes ++ ms.flatMap heard :=
  (hears_of_messages hk hms hroute hsensor htime hmeans h).2.notes

/-- A reference and a rotation vector, when the table has their lengths. -/
theorem means_half {s : Sh2} (hbase : s.getReportLen 0xFB = 5) (hsensor : s.getReportLen 0x05 = 14)
    (hrollovers : s.rollovers = 0) :
    Means s 0 .sensorhubInputNormalHdlr ([0xFB, 5, 0, 0, 0] ++ halfQuaternion.bytes)
      ((eventsOf 0 0 0 [.base 5, .sensor halfQuaternion]).map .sensor) := by
  have hvalid : ∀ r ∈ [.base 5, .sensor halfQuaternion], InputReport.Valid s r := by
    intro r hr
    rcases List.mem_cons.mp hr with rfl | hr
    · exact ⟨⟨_, _, rfl, hbase⟩, fun x hx => by cases hx⟩
    · obtain rfl := List.mem_singleton.mp hr
      exact ⟨⟨_, _, rfl, hsensor⟩, fun x hx => by cases hx; decide⟩
  have hinput : Means s 0 _ (_ ++ []) _ := .input (.inl rfl) hvalid (by simp)
  rw [hrollovers] at hinput
  exact hinput

/-- An advertisement of the channel `inputNormal`, with the number 3, and of the lengths of the
reports `0xFB` and `0x05`. -/
def inputAdvertisement : List UInt8 :=
  [34, 0, 0, 0, 0] ++ [1, 4, 2, 0, 0, 0] ++ [6, 1, 3] ++ [9, 12] ++ bytes "inputNormal" ++ [0] ++
    [0x81, 4, 0xFB, 5, 0x05, 14]

/-- It is heard of when it arrives in two transfers. -/
theorem reports_delivered_half : ∃ (k l : Client) (m : Message),
    Machine.run step k (m.transfers.map fun x => .service x.1 x.2) = some l ∧
      l.sh2.notes = k.sh2.notes ++
        (eventsOf 0 0 0 [.base 5, .sensor halfQuaternion]).map .sensor := by
  let m : Message :=
    ⟨⟨3, by decide⟩, 9, ([0xFB, 5, 0], 0), [([0, 0] ++ halfQuaternion.bytes, 0)], by decide,
      by decide⟩
  let table (s : Sh2) : Bool := s.getReportLen 0xFB = 5 ∧ s.getReportLen 0x05 = 14 ∧
    (s.shtp.chan 3).callback = some .sensorhubInputNormalHdlr ∧ s.sensorCallback = true ∧
    s.lastHostInt = 0 ∧ s.rollovers = 0
  obtain ⟨l, hl⟩ := Option.isSome_iff_exists.mp (show ((Machine.run step start
    [.setSensorCallback, .service inputAdvertisement 0]).bind fun k =>
      if table k.sh2 then Machine.run step k (m.transfers.map fun x => .service x.1 x.2)
      else none).isSome by decide +kernel)
  obtain ⟨k, hk, hl⟩ := Option.bind_eq_some_iff.mp hl
  split_ifs at hl with htable
  obtain ⟨hbase, hsensor, hcb, hcallback, hclock, hrollovers⟩ := of_decide_eq_true htable
  let route : Fin 8 → Callback := fun _ => .sensorhubInputNormalHdlr
  let heard : Message → List HubNote :=
    fun _ => (eventsOf 0 0 0 [.base 5, .sensor halfQuaternion]).map .sensor
  have hroute : ∀ m' ∈ [m], m'.chan.val < listeners.length ∧
      (k.sh2.shtp.chan m'.chan).callback = some (route m'.chan) ∧
      route m'.chan ≠ .shtpCmdListener := by
    simp only [List.mem_singleton, forall_eq]
    exact ⟨by decide, hcb, by decide⟩
  have htime : ∀ m' ∈ [m], m'.first.2 = k.sh2.lastHostInt := by
    simp only [List.mem_singleton, forall_eq]
    exact hclock.symm
  have hmeans : ∀ m' ∈ [m], Means k.sh2 k.sh2.lastHostInt (route m'.chan) m'.bytes (heard m') := by
    simp only [List.mem_singleton, forall_eq]
    rw [hclock]
    exact means_half hbase hsensor hrollovers
  have hnotes := reports_delivered ⟨_, hk⟩ rfl hroute hcallback htime hmeans hl
  exact ⟨k, l, m, hl, hnotes⟩

end Client

end PicoUros.Imu
