import PicoUros.Inter.LatestQueue
import PicoUros.Lib.Rounding

/-!
# The servo command path

A `servo/req` message is handled on core 0 by `subscription_callback_servo`: a request with an
angle of at most `180` is pushed on `q_servo` with `queue_push_latest` and answered `true`, any
other one is answered `false`. Core 1 takes the latest request with `queue_try_get_latest`, turns
the angle into a position in `double` arithmetic and calls `WritePosEx` (`src/main.cpp`, lines
646–663 and 930–938).

`step` interleaves the two cores between any two queue calls. A `WritePosEx` call blocks core 1
until it returns, so it is one step here.

## Main definitions

* `ServoT`, `WritePosEx`, `servoPos`: the request, the call and the position sent for an angle.
* `State`, `Act`, `step`: the two cores.

## Main results

* `servoPos_toNat`: the position is `⌊angle * 512 / 45⌋ + 1024`, whatever the rounding.
* `Inv`, `inv_step`: the invariant, on top of the invariant of the channel.
* `commandPath_safe`: the calls are, in order, calls for accepted requests, and at rest the last
  call is the one for the last accepted request.
* `acknowledged_written_or_superseded`: at rest, an acknowledged request was carried out or
  superseded by a later acknowledged one.
-/

namespace PicoUros.Servo

open LatestQueue (Tagged tagAll)

/-! ### Requests and positions -/

/-- `servo_t`. -/
structure ServoT where
  id : UInt8
  angle : UInt8
  deriving DecidableEq

/-- The arguments of a call of `SMS_STS::WritePosEx`. -/
structure WritePosEx where
  id : UInt8
  position : UInt16
  speed : UInt16
  acc : UInt8
  deriving DecidableEq

/-- `SERVO_SPEED`. -/
def servoSpeed : UInt16 := 1500

/-- `SERVO_ACC`. -/
def servoAcc : UInt8 := 50

/-- `(uint16_t)(angle*512.0/45.0+1024.0)`: each operation rounds to a `double`, and the conversion
drops the fraction. -/
def servoPos (R : Rounding) (angle : UInt8) : UInt16 :=
  .ofNat ⌊R.rnd (R.rnd (R.rnd ((angle.toNat : ℚ) * (512 : ℕ)) / (45 : ℕ)) + (1024 : ℕ))⌋.toNat

/-- The call that core 1 makes for a request. -/
def ServoT.write (R : Rounding) (m : ServoT) : WritePosEx :=
  ⟨m.id, servoPos R m.angle, servoSpeed, servoAcc⟩

theorem servoPos_toNat (R : Rounding) (angle : UInt8) :
    (servoPos R angle).toNat = angle.toNat * 512 / 45 + 1024 := by
  have hlt := angle.toNat_lt
  have hmul : R.rnd ((angle.toNat : ℚ) * (512 : ℕ)) = (angle.toNat * 512 : ℕ) := by
    rw [← Nat.cast_mul, R.rnd_nat (by omega)]
  have hfloor : ⌊R.rnd (R.rnd ((angle.toNat * 512 : ℕ) / (45 : ℕ)) + (1024 : ℕ))⌋ =
      (angle.toNat * 512 / 45 + 1024 : ℕ) := by
    rcases Nat.eq_zero_or_pos angle.toNat with hzero | hpos
    · have h0 : R.rnd 0 = 0 := by exact_mod_cast R.rnd_nat (n := 0) (by norm_num)
      rw [hzero, Nat.zero_mul, Nat.cast_zero, zero_div, h0, zero_add, R.rnd_nat (by norm_num),
        Int.floor_natCast]
    · exact R.floor_add_nat (by norm_num) (by omega) (by omega) (by norm_num) (by norm_num)
  rw [servoPos, hmul, hfloor, Int.toNat_natCast, UInt16.toNat_ofNat_of_lt']
  have : UInt16.size = 65536 := rfl
  omega

theorem servoPos_bounds (R : Rounding) {angle : UInt8} (h : angle ≤ 180) :
    1024 ≤ (servoPos R angle).toNat ∧ (servoPos R angle).toNat ≤ 3072 := by
  have h' : angle.toNat ≤ 180 := UInt8.le_iff_toNat_le.mp h
  rw [servoPos_toNat]
  omega

theorem servoPos_strictMono (R : Rounding) {a b : UInt8} (h : a < b) :
    servoPos R a < servoPos R b := by
  have h' : a.toNat < b.toNat := UInt8.lt_iff_toNat_lt.mp h
  rw [UInt16.lt_iff_toNat_lt, servoPos_toNat, servoPos_toNat]
  omega

/-! ### The two cores -/

/-- Where core 0 is inside `subscription_callback_servo`. -/
inductive Callback where
  | idle
  | pushing (m : ServoT)
  | publishing (m : ServoT) (data : Bool)

structure State where
  /-- `q_servo`, with the position of both cores inside the queue functions. -/
  channel : LatestQueue.State 8 ServoT := {}
  callback : Callback := .idle
  /-- The messages received on `servo/req`. -/
  requests : List ServoT := []
  /-- The requests answered on `servo/resp`, with `SERVO_resp_msg.data`. -/
  answered : List (ServoT × Bool) := []
  /-- The calls of `WritePosEx`, with the number of the accepted request they are for. -/
  writes : List (Tagged WritePosEx) := []

/-- `request`, `push` and `publish` are steps of the callback on core 0, `get`, `remove` and
`write` those of the servo section of core 1. -/
inductive Act where
  | request (m : ServoT)
  | push
  | publish
  | get
  | remove
  | write

def step (R : Rounding) (s : State) : Act → Option State
  | .request m =>
    match s.callback with
    | .idle =>
      if m.angle ≤ 180 then
        (LatestQueue.step s.channel (.push m)).map fun c =>
          { s with channel := c, callback := .pushing m, requests := s.requests ++ [m] }
      else
        some { s with callback := .publishing m false, requests := s.requests ++ [m] }
    | _ => none
  | .push =>
    match s.callback with
    | .pushing m =>
      (LatestQueue.step s.channel .produce).map fun c =>
        match c.producer with
        | .idle => { s with channel := c, callback := .publishing m true }
        | _ => { s with channel := c }
    | _ => none
  | .publish =>
    match s.callback with
    | .publishing m data => some { s with callback := .idle, answered := s.answered ++ [(m, data)] }
    | _ => none
  | .get => (LatestQueue.step s.channel .get).map fun c => { s with channel := c }
  | .remove => (LatestQueue.step s.channel .consume).map fun c => { s with channel := c }
  | .write =>
    match s.channel.consumer with
    | .got e => (LatestQueue.step s.channel .use).map fun c =>
        { s with channel := c, writes := s.writes ++ [⟨e.tag, e.val.write R⟩] }
    | _ => none

/-- `q_servo` is empty and neither core is inside an operation on it. -/
structure State.Quiescent (s : State) : Prop where
  channel : s.channel.Quiescent
  callback : s.callback = .idle

/-- The requests answered `true`, in order. -/
def State.acknowledged (s : State) : List ServoT :=
  s.answered.filterMap fun p => if p.2 then some p.1 else none

/-- The requests that pass the check of the callback, in order. -/
def State.accepted (s : State) : List ServoT := s.requests.filter fun m => m.angle ≤ 180

/-- The calls for a list of requests. -/
def writesFor (R : Rounding) (l : List (Tagged ServoT)) : List (Tagged WritePosEx) :=
  l.map fun e => ⟨e.tag, e.val.write R⟩

/-- The answer that a callback in progress is going to publish. -/
def Callback.pending : Callback → List (ServoT × Bool)
  | .idle => []
  | .pushing m => [(m, true)]
  | .publishing m data => [(m, data)]

/-! ### The invariant -/

/-- What holds in every reachable state. -/
structure Inv (R : Rounding) (s : State) : Prop where
  channel : LatestQueue.Inv s.channel
  /-- The accepted requests, and no others, are pushed. -/
  pushed : s.channel.pushed = s.accepted
  /-- Every result of a get is written, once. -/
  written : writesFor R s.channel.returned = s.writes ++ writesFor R s.channel.consumer.unused
  /-- A request is answered by the outcome of the check. -/
  answered : (s.requests.map fun m => (m, decide (m.angle ≤ 180))) =
    s.answered ++ s.callback.pending

variable {R : Rounding}

theorem inv_init : Inv R {} where
  channel := LatestQueue.inv_init
  pushed := rfl
  written := rfl
  answered := rfl

private theorem inv_request {s t : State} {m : ServoT} (h : Inv R s)
    (ht : step R s (.request m) = some t) : Inv R t := by
  simp only [step] at ht
  split at ht
  · next hidle =>
    have hanswered := h.answered
    rw [hidle] at hanswered
    split_ifs at ht with hangle
    · obtain ⟨c, hc, rfl⟩ := Option.map_eq_some_iff.mp ht
      have hinv := LatestQueue.inv_step (by norm_num) _ _ _ h.channel hc
      simp only [LatestQueue.step] at hc
      split at hc <;> cases hc
      exact
        { channel := hinv
          pushed := by simp [State.accepted, h.pushed, hangle]
          written := h.written
          answered := by simpa [Callback.pending, hangle] using hanswered }
    · cases ht
      exact
        { channel := h.channel
          pushed := by simp [State.accepted, h.pushed, hangle]
          written := h.written
          answered := by simpa [Callback.pending, hangle] using hanswered }
  · cases ht

private theorem inv_push {s t : State} (h : Inv R s) (ht : step R s .push = some t) :
    Inv R t := by
  simp only [step] at ht
  split at ht
  · next m hpushing =>
    have hanswered := h.answered
    rw [hpushing] at hanswered
    obtain ⟨c, hc, rfl⟩ := Option.map_eq_some_iff.mp ht
    have hinv := LatestQueue.inv_step (by norm_num) _ _ _ h.channel hc
    obtain ⟨hpushed, hreturned, hconsumer⟩ := LatestQueue.produce_frame hc
    have hwritten := h.written
    rw [← hreturned, ← hconsumer] at hwritten
    split
    · exact ⟨hinv, hpushed.trans h.pushed, hwritten, hanswered⟩
    · exact ⟨hinv, hpushed.trans h.pushed, hwritten, h.answered⟩
  · cases ht

private theorem inv_write {s t : State} (h : Inv R s) (ht : step R s .write = some t) :
    Inv R t := by
  simp only [step] at ht
  split at ht
  · next e hgot =>
    obtain ⟨c, hc, rfl⟩ := Option.map_eq_some_iff.mp ht
    have hinv := LatestQueue.inv_step (by norm_num) _ _ _ h.channel hc
    simp only [LatestQueue.step] at hc
    split at hc <;> cases hc
    have hwritten := h.written
    rw [hgot] at hwritten
    exact ⟨hinv, h.pushed, by simpa [writesFor, LatestQueue.Consumer.unused] using hwritten,
      h.answered⟩
  · cases ht

theorem inv_step (s : State) (a : Act) (t : State) (h : Inv R s) (ht : step R s a = some t) :
    Inv R t := by
  cases a with
  | request m => exact inv_request h ht
  | push => exact inv_push h ht
  | publish =>
    simp only [step] at ht
    split at ht <;> cases ht
    next hpublishing =>
    have hanswered := h.answered
    rw [hpublishing] at hanswered
    exact ⟨h.channel, h.pushed, h.written, by simpa [Callback.pending] using hanswered⟩
  | get =>
    obtain ⟨c, hc, rfl⟩ := Option.map_eq_some_iff.mp ht
    have hinv := LatestQueue.inv_step (by norm_num) _ _ _ h.channel hc
    simp only [LatestQueue.step] at hc
    split at hc <;> cases hc
    next hidle =>
    have hwritten := h.written
    rw [hidle] at hwritten
    exact ⟨hinv, h.pushed, hwritten, h.answered⟩
  | remove =>
    obtain ⟨c, hc, rfl⟩ := Option.map_eq_some_iff.mp ht
    have hinv := LatestQueue.inv_step (by norm_num) _ _ _ h.channel hc
    obtain ⟨hpushed, hunused, hreturned⟩ := LatestQueue.consume_frame hc
    have hwritten := h.written
    rw [hunused] at hwritten
    exact ⟨hinv, hpushed.trans h.pushed, by simpa [hreturned, writesFor] using hwritten,
      h.answered⟩
  | write => exact inv_write h ht

/-- Every state of every interleaving satisfies the invariant. -/
theorem inv_run {as : List Act} {s : State} (h : Machine.run (step R) {} as = some s) : Inv R s :=
  Machine.inv_of_run inv_step inv_init h

/-! ### Safety and convergence -/

/-- What the calls of `WritePosEx` have to do with the requests. -/
structure CommandPathSafe (R : Rounding) (s : State) : Prop where
  /-- In order and without repetition, every call is the one for an accepted request. -/
  sublist : s.writes.Sublist (writesFor R (tagAll s.accepted))
  /-- A call sends the position of the angle of its request. -/
  position : ∀ w ∈ s.writes, ∃ m, s.accepted[w.tag]? = some m ∧ m.angle ≤ 180 ∧
    w.val.id = m.id ∧ w.val.position.toNat = m.angle.toNat * 512 / 45 + 1024 ∧
    1024 ≤ w.val.position.toNat ∧ w.val.position.toNat ≤ 3072
  /-- A larger angle is a larger position. -/
  strictMono : ∀ v ∈ s.writes, ∀ w ∈ s.writes, ∀ m m', s.accepted[v.tag]? = some m →
    s.accepted[w.tag]? = some m' → m.angle < m'.angle → v.val.position < w.val.position
  /-- At rest the last call is the one for the last accepted request. -/
  last : s.Quiescent → s.writes.getLast? = (writesFor R (tagAll s.accepted)).getLast?

theorem mem_writesFor_tagAll {l : List ServoT} {w : Tagged WritePosEx} :
    w ∈ writesFor R (tagAll l) ↔ ∃ m, l[w.tag]? = some m ∧ w.val = m.write R := by
  simp only [writesFor, List.mem_map, LatestQueue.mem_tagAll]
  constructor
  · rintro ⟨e, he, rfl⟩
    exact ⟨e.val, he, rfl⟩
  · rintro ⟨m, hm, hw⟩
    exact ⟨⟨w.tag, m⟩, hm, by rw [← hw]⟩

theorem Inv.writes_sublist {s : State} (h : Inv R s) :
    s.writes.Sublist (writesFor R (tagAll s.accepted)) := by
  have hsub : (writesFor R s.channel.returned).Sublist (writesFor R (tagAll s.accepted)) :=
    (h.pushed ▸ h.channel.returned_sublist).map _
  rw [h.written] at hsub
  exact (List.sublist_append_left _ _).trans hsub

/-- At rest every result of a get has been written. -/
theorem Inv.last_write {s : State} (h : Inv R s) (hs : s.Quiescent) :
    s.writes.getLast? = (writesFor R (tagAll s.accepted)).getLast? := by
  have hwritten : writesFor R s.channel.returned = s.writes := by
    simpa [hs.channel.consumer, LatestQueue.Consumer.unused, writesFor] using h.written
  rw [← hwritten, writesFor, writesFor, List.getLast?_map, List.getLast?_map,
    h.channel.last_returned hs.channel, h.pushed]

/-- **Safety and convergence of the servo command path**, for every interleaving. -/
theorem commandPath_safe {as : List Act} {s : State} (h : Machine.run (step R) {} as = some s) :
    CommandPathSafe R s := by
  have hinv := inv_run h
  have hmem (w) (hw : w ∈ s.writes) : ∃ m, s.accepted[w.tag]? = some m ∧ w.val = m.write R :=
    mem_writesFor_tagAll.mp (hinv.writes_sublist.subset hw)
  have hangle {n : ℕ} {m : ServoT} (hm : s.accepted[n]? = some m) : m.angle ≤ 180 := by
    simpa using (List.mem_filter.mp (List.mem_of_getElem? hm)).2
  refine ⟨hinv.writes_sublist, fun w hw => ?_, fun v hv w hw m m' hm hm' hlt => ?_,
    hinv.last_write⟩
  · obtain ⟨m, hm, hval⟩ := hmem w hw
    rw [hval]
    exact ⟨m, hm, hangle hm, rfl, servoPos_toNat R m.angle, servoPos_bounds R (hangle hm)⟩
  · obtain ⟨k, hk, hval⟩ := hmem v hv
    obtain ⟨k', hk', hval'⟩ := hmem w hw
    cases hm.symm.trans hk
    cases hm'.symm.trans hk'
    rw [hval, hval']
    exact servoPos_strictMono R hlt

/-- A request is carried out, one with a large angle is refused, and of two more the later one is
carried out. -/
def fourRequests : List Act :=
  [.request ⟨1, 90⟩, .push, .publish, .get, .remove, .remove, .write, .request ⟨1, 200⟩, .publish,
    .request ⟨2, 10⟩, .push, .publish, .request ⟨2, 180⟩, .push, .publish,
    .get, .remove, .remove, .remove, .write]

theorem commandPath_safe_fourRequests :
    ∃ s, Machine.run (step .exact) {} fourRequests = some s ∧ s.Quiescent ∧
      s.answered.map Prod.snd = [true, false, true, true] ∧
      s.writes = [⟨0, ⟨1, 2048, 1500, 50⟩⟩, ⟨2, ⟨2, 3072, 1500, 50⟩⟩] ∧
      CommandPathSafe .exact s := by
  have hrun : Machine.run (step .exact) {} fourRequests = some _ := rfl
  exact ⟨_, hrun, ⟨⟨rfl, rfl, rfl⟩, rfl⟩, rfl, by decide +kernel, commandPath_safe hrun⟩

/-! ### What happens to an acknowledged request -/

/-- At rest, all requests that pass the check have been answered `true`, and no others. -/
theorem Inv.acknowledged_eq {s : State} (h : Inv R s) (hs : s.callback = .idle) :
    s.acknowledged = s.accepted := by
  have hanswered : s.answered = s.requests.map fun m => (m, decide (m.angle ≤ 180)) := by
    simpa [hs, Callback.pending] using h.answered.symm
  rw [State.acknowledged, hanswered, List.filterMap_map, State.accepted,
    ← List.filterMap_eq_filter]
  refine List.filterMap_congr fun m _ => ?_
  by_cases hm : m.angle ≤ 180 <;> simp [hm, Option.guard]

/-- Each request answered `true` was transmitted, or a later one for the same servo was answered
`true` too. -/
def State.HonoursEachServo (R : Rounding) (s : State) : Prop :=
  ∀ n m, s.acknowledged[n]? = some m → ⟨n, m.write R⟩ ∈ s.writes ∨
    ∃ n' m', n < n' ∧ s.acknowledged[n']? = some m' ∧ m'.id = m.id

/-- Requests for two servos that arrive between two passes of core 1. -/
def twoServos : List Act :=
  [.request ⟨1, 10⟩, .push, .publish, .request ⟨2, 20⟩, .push, .publish,
    .get, .remove, .remove, .remove, .write]

theorem twoServos_not_honoursEachServo :
    ∃ s, Machine.run (step .exact) {} twoServos = some s ∧ s.Quiescent ∧
      ¬ s.HonoursEachServo .exact := by
  refine ⟨_, rfl, ⟨⟨rfl, rfl, rfl⟩, rfl⟩, fun h => ?_⟩
  rcases h 0 ⟨1, 10⟩ rfl with hmem | ⟨n, m, hn, hm, hid⟩
  · simp at hmem
  · rcases n with - | - | n
    · cases hn
    · cases hm
      exact absurd hid (by decide)
    · cases hm

/-- **A request answered `true` is carried out or superseded.** At rest, each one was transmitted
or is followed by another one, for some servo, that was answered `true` and transmitted. -/
theorem acknowledged_written_or_superseded {as : List Act} {s : State}
    (h : Machine.run (step R) {} as = some s) (hs : s.Quiescent) {n : ℕ} {m : ServoT}
    (hm : s.acknowledged[n]? = some m) : ⟨n, m.write R⟩ ∈ s.writes ∨
      ∃ n' m', n < n' ∧ s.acknowledged[n']? = some m' ∧ ⟨n', m'.write R⟩ ∈ s.writes := by
  have hinv := inv_run h
  rw [hinv.acknowledged_eq hs.callback] at hm ⊢
  rcases List.eq_nil_or_concat s.accepted with hnil | ⟨l, k, hl⟩
  · simp [hnil] at hm
  · have hlast : s.writes.getLast? = some ⟨l.length, k.write R⟩ := by
      rw [hinv.last_write hs, hl, List.concat_eq_append, LatestQueue.tagAll_concat, writesFor,
        List.map_append, List.map_singleton, List.getLast?_concat]
    have hmem := List.mem_of_getLast? hlast
    rw [hl, List.concat_eq_append] at hm ⊢
    rcases (show n ≤ l.length by
      have := (List.getElem?_eq_some_iff.mp hm).1
      simp at this
      omega).lt_or_eq with hlt | rfl
    · exact .inr ⟨l.length, k, hlt, by simp, hmem⟩
    · have hk : k = m := by simpa using hm
      exact .inl (hk ▸ hmem)

theorem acknowledged_written_or_superseded_twoServos :
    ∃ s, Machine.run (step .exact) {} twoServos = some s ∧
      (⟨0, ServoT.write .exact ⟨1, 10⟩⟩ ∈ s.writes ∨ ∃ n' m', 0 < n' ∧
        s.acknowledged[n']? = some m' ∧ ⟨n', m'.write .exact⟩ ∈ s.writes) :=
  ⟨_, rfl, acknowledged_written_or_superseded
    (show Machine.run (step .exact) {} twoServos = some _ from rfl) ⟨⟨rfl, rfl, rfl⟩, rfl⟩ rfl⟩

end PicoUros.Servo
