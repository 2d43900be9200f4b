import PicoUros.Lib.Machine
import Mathlib.Data.Int.Basic
import Mathlib.Data.List.Infix

/-!
# The pattern pulse of the COP output

A `led_cop/req` message switches `COP_LED`, or raises `COP_PATHERN` for a moment when the lamp is
on (`src/main.cpp`, lines 666–714). `cop_trigger_pattern_pulse` raises the output and asks the SDK
for an alarm that lowers it; a pulse that is asked for during a pulse cancels the alarm of the
first. The callback of the alarm is an interrupt on the same core: it runs between any two
statements of the trigger, and none of the trigger's statements runs inside it.

`step` is this machine. Time is left to the scheduler, which may let an alarm fire at any moment, so
the delay of the alarm is not part of it. The three results that the SDK documents for
`add_alarm_in_ms` are choices of the environment. Alarms carry the number of their pulse; the code
never reads it.

## Main definitions

* `State`, `Act`, `step`: the machine.
* `PulseBounded`: the output is high exactly as long as an alarm is pending that lowers it.
* `PulseKept`: this holds between the messages of a run, and no alarm outlives its pulse.

## Main results

* `Inv`, `inv_step`, `inv_run`: the invariant, at every statement of the trigger.
* `pulseKept_iff`: the pulses are bounded exactly in the runs where every alarm finds a slot.
* `exhaustedPool_not_pulseBounded`: one alarm without a slot leaves the output high.
-/

namespace PicoUros.Cop

/-! ### The machine -/

/-- A pending alarm of the SDK with the callback `cop_pattern_off_cb`. -/
structure Alarm where
  id : ℤ
  /-- The number of pulses when the alarm was added. -/
  pulse : ℕ
  deriving DecidableEq

/-- The statement of `cop_trigger_pattern_pulse` that comes next. The argument of `cancel_alarm` is
read from the volatile variable before the call. -/
inductive Pc where
  | idle
  | test
  | load
  | cancel (id : ℤ)
  | clear
  | raise
  | add
  | assign (id : ℤ)
  deriving DecidableEq

structure State where
  copLed : Bool := false
  copPathern : Bool := false
  copPatternAlarm : ℤ := -1
  pc : Pc := .idle
  /-- The alarms that the SDK has yet to call back. -/
  alarms : List Alarm := []
  /-- How often `COP_PATHERN` was raised. -/
  pulses : ℕ := 0
  /-- The published `COP_resp_msg`. -/
  responses : List Bool := []
  deriving DecidableEq

/-- What `add_alarm_in_ms` does with `fire_if_past`: the alarm is pending, or it was due and its
callback has run, or there is no slot for it. -/
inductive Outcome where
  | pending (id : ℤ)
  | past
  | noSlot (error : ℤ)
  deriving DecidableEq

/-- `statement` performs the next statement of the trigger other than `add_alarm_in_ms`, and `fire`
is the interrupt of a pending alarm. -/
inductive Act where
  | message (data : UInt8)
  | statement
  | addAlarm (outcome : Outcome)
  | fire (id : ℤ)
  deriving DecidableEq

def copPatternOffCb (s : State) : State :=
  { s with copPathern := false, copPatternAlarm := -1 }

/-- `cancel_alarm`, which does nothing for an id that is not pending. -/
def cancelAlarm (alarms : List Alarm) (id : ℤ) : List Alarm := alarms.filter fun a => a.id ≠ id

/-- The end of `subscription_callback_cop`. -/
def respond (s : State) (ok : Bool) : State :=
  { s with pc := .idle, responses := s.responses ++ [ok] }

/-- `subscription_callback_cop`, up to the call of the trigger if there is one. -/
def subscriptionCallbackCop (s : State) (data : UInt8) : State :=
  if data = 0 then respond { s with copLed := false } true
  else if data = 1 then respond { s with copLed := true } true
  else if data = 2 then
    if s.copLed then { s with pc := .test } else respond s false
  else respond s false

/-- The statements of `cop_trigger_pattern_pulse`. -/
def statement (s : State) : Option State :=
  match s.pc with
  | .idle | .add => none
  | .test => some { s with pc := if 0 ≤ s.copPatternAlarm then .load else .raise }
  | .load => some { s with pc := .cancel s.copPatternAlarm }
  | .cancel id => some { s with alarms := cancelAlarm s.alarms id, pc := .clear }
  | .clear => some { s with copPatternAlarm := -1, pc := .raise }
  | .raise => some { s with copPathern := true, pulses := s.pulses + 1, pc := .add }
  | .assign id => some (respond { s with copPatternAlarm := id } true)

/-- The call of `add_alarm_in_ms`. Ids of pending alarms are positive and different. -/
def addAlarm (s : State) : Outcome → Option State
  | .pending id =>
    if 0 < id ∧ ∀ a ∈ s.alarms, a.id ≠ id then
      some { s with alarms := ⟨id, s.pulses⟩ :: s.alarms, pc := .assign id }
    else none
  | .past => some { copPatternOffCb s with pc := .assign 0 }
  | .noSlot error => if error < 0 then some { s with pc := .assign error } else none

def step (s : State) : Act → Option State
  | .message data => if s.pc = .idle then some (subscriptionCallbackCop s data) else none
  | .statement => statement s
  | .addAlarm o => if s.pc = .add then addAlarm s o else none
  | .fire id =>
    if ∃ a ∈ s.alarms, a.id = id then
      some { copPatternOffCb s with alarms := cancelAlarm s.alarms id }
    else none

/-! ### The promise -/

/-- At most one alarm is pending, the output is high exactly if there is one, and that one was
added for the last pulse. -/
structure PulseBounded (s : State) : Prop where
  alarms_le : s.alarms.length ≤ 1
  high_iff : s.copPathern = true ↔ s.alarms.length = 1
  last : ∀ a ∈ s.alarms, a.pulse = s.pulses

/-- In every state that a run reaches, an alarm that can fire was added for the last pulse, and
where no trigger is in progress the output is bounded. -/
def PulseKept (as : List Act) : Prop :=
  ∀ bs t, bs <+: as → Machine.run step {} bs = some t →
    (∀ a ∈ t.alarms, a.pulse = t.pulses) ∧ (t.pc = .idle → PulseBounded t)

def Outcome.FindsSlot : Outcome → Prop
  | .noSlot _ => False
  | _ => True

/-- An action is no call of `add_alarm_in_ms` that fails. -/
def Act.FindsSlot : Act → Prop
  | .addAlarm o => o.FindsSlot
  | _ => True

/-! ### The invariant -/

/-- Where the id of a pending alarm is, at each statement of the trigger. Between `cancel_alarm` and
`add_alarm_in_ms` no alarm is pending. -/
def Pc.Holds (pc : Pc) (copPatternAlarm id : ℤ) : Prop :=
  match pc with
  | .idle | .test | .load => copPatternAlarm = id
  | .cancel i | .assign i => i = id
  | .clear | .raise | .add => False

/-- The output belongs to the alarms, the trigger being outside its critical part. -/
def Pc.Settled : Pc → Prop
  | .clear | .raise | .add => False
  | _ => True

/-- The invariant; `failed` says that the last `add_alarm_in_ms` found no slot. -/
structure Inv (failed : Bool) (s : State) : Prop where
  alarms_le : s.alarms.length ≤ 1
  pos : ∀ a ∈ s.alarms, 0 < a.id
  last : ∀ a ∈ s.alarms, a.pulse = s.pulses
  held : ∀ a ∈ s.alarms, s.pc.Holds s.copPatternAlarm a.id
  alone : failed = true → s.alarms = []
  high_iff : s.pc.Settled → (s.copPathern = true ↔ s.alarms ≠ [] ∨ failed = true)
  raised : s.pc = .add → s.copPathern = true

/-- Whether the last call of `add_alarm_in_ms` failed, after an action. -/
def Act.failed (act : Act) (failed : Bool) : Bool :=
  match act with
  | .addAlarm (.noSlot _) => true
  | .addAlarm _ => false
  | _ => failed

variable {failed : Bool} {s t : State}

theorem mem_cancelAlarm {alarms : List Alarm} {id : ℤ} {a : Alarm} :
    a ∈ cancelAlarm alarms id ↔ a ∈ alarms ∧ a.id ≠ id := by
  simp [cancelAlarm]

theorem Inv.init : Inv false {} where
  alarms_le := Nat.zero_le 1
  pos := by simp
  last := by simp
  held := by simp
  alone := by simp
  high_iff := by simp
  raised := by simp

/-- While a statement is due at which no alarm is pending, none is. -/
theorem Inv.alarms_eq_nil (h : Inv failed s) (hpc : ¬ s.pc.Settled) : s.alarms = [] := by
  refine List.eq_nil_iff_forall_not_mem.mpr fun a ha => ?_
  have hheld := h.held a ha
  cases hs : s.pc <;> simp_all [Pc.Settled, Pc.Holds]

theorem cancelAlarm_eq_nil {alarms : List Alarm} {id : ℤ} (hid : ∀ a ∈ alarms, a.id = id) :
    cancelAlarm alarms id = [] :=
  List.eq_nil_iff_forall_not_mem.mpr fun _ ha =>
    (mem_cancelAlarm.mp ha).2 (hid _ (mem_cancelAlarm.mp ha).1)

/-- All alarms have the id of one of them, since there is only one. -/
theorem Inv.id_eq (h : Inv failed s) {a b : Alarm} (ha : a ∈ s.alarms) (hb : b ∈ s.alarms) :
    a.id = b.id := by
  obtain ⟨c, hc⟩ := List.length_eq_one_iff.mp (h.alarms_le.antisymm (List.length_pos_of_mem ha))
  rw [hc, List.mem_singleton] at ha hb
  rw [ha, hb]

theorem inv_respond (h : Inv failed s) (ok : Bool) (hpc : s.pc = .idle) :
    Inv failed (respond s ok) where
  alarms_le := h.alarms_le
  pos := h.pos
  last := h.last
  held := by simpa [hpc, respond] using h.held
  alone := h.alone
  high_iff _ := h.high_iff (by simp [hpc, Pc.Settled])
  raised := nofun

theorem inv_message (h : Inv failed s) (hpc : s.pc = .idle) (data : UInt8) :
    Inv failed (subscriptionCallbackCop s data) := by
  have hled : ∀ b, Inv failed { s with copLed := b } := fun b =>
    ⟨h.alarms_le, h.pos, h.last, h.held, h.alone, h.high_iff, h.raised⟩
  have htest : Inv failed { s with pc := .test } :=
    { alarms_le := h.alarms_le
      pos := h.pos
      last := h.last
      held := by simpa [hpc, Pc.Holds] using h.held
      alone := h.alone
      high_iff := fun _ => h.high_iff (by simp [hpc, Pc.Settled])
      raised := nofun }
  unfold subscriptionCallbackCop
  split_ifs
  · exact inv_respond (hled false) true hpc
  · exact inv_respond (hled true) true hpc
  · exact htest
  · exact inv_respond h false hpc
  · exact inv_respond h false hpc

/-- The test sees an alarm that is pending: its id is in the variable and positive. -/
theorem inv_test (h : Inv failed s) (hpc : s.pc = .test) :
    Inv failed { s with pc := if 0 ≤ s.copPatternAlarm then .load else .raise } := by
  have hheld := h.held
  rw [hpc] at hheld
  by_cases hsign : 0 ≤ s.copPatternAlarm
  · rw [if_pos hsign]
    exact
      { h with
        held := hheld
        high_iff := fun _ => h.high_iff (by simp [hpc, Pc.Settled])
        raised := nofun }
  · rw [if_neg hsign]
    have hnil : s.alarms = [] := by
      refine List.eq_nil_iff_forall_not_mem.mpr fun a ha => hsign ?_
      rw [hheld a ha]
      exact Int.le_of_lt (h.pos a ha)
    exact
      { h with
        held := by simp [hnil]
        high_iff := nofun
        raised := nofun }

theorem inv_statement (h : Inv failed s) (hst : statement s = some t) : Inv failed t := by
  unfold statement at hst
  cases hpc : s.pc with
  | idle | add => simp [hpc] at hst
  | test =>
    simp only [hpc, Option.some.injEq] at hst
    subst hst
    exact inv_test h hpc
  | load =>
    simp only [hpc, Option.some.injEq] at hst
    subst hst
    have hheld := h.held
    rw [hpc] at hheld
    exact
      { h with
        held := hheld
        high_iff := fun _ => h.high_iff (by simp [hpc, Pc.Settled])
        raised := nofun }
  | cancel id =>
    simp only [hpc, Option.some.injEq] at hst
    subst hst
    have hheld := h.held
    rw [hpc] at hheld
    have hnil := cancelAlarm_eq_nil fun a ha => (hheld a ha).symm
    rw [hnil]
    exact
      { alarms_le := Nat.zero_le 1
        pos := by simp
        last := by simp
        held := by simp
        alone := fun _ => rfl
        high_iff := nofun
        raised := nofun }
  | clear | raise =>
    simp only [hpc, Option.some.injEq] at hst
    subst hst
    have hnil := h.alarms_eq_nil (by simp [hpc, Pc.Settled])
    exact
      { alarms_le := h.alarms_le
        pos := h.pos
        last := by simp [hnil]
        held := by simp [hnil]
        alone := h.alone
        high_iff := nofun
        raised := by simp }
  | assign id =>
    simp only [hpc, Option.some.injEq] at hst
    subst hst
    have hheld := h.held
    rw [hpc] at hheld
    exact
      { alarms_le := h.alarms_le
        pos := h.pos
        last := h.last
        held := hheld
        alone := h.alone
        high_iff := fun _ => h.high_iff (by simp [hpc, Pc.Settled])
        raised := nofun }

theorem inv_addAlarm (h : Inv failed s) (hpc : s.pc = .add) {o : Outcome}
    (hst : addAlarm s o = some t) : Inv ((Act.addAlarm o).failed failed) t := by
  have hnil := h.alarms_eq_nil (by simp [hpc, Pc.Settled])
  cases o with
  | pending id =>
    simp only [addAlarm, hnil, Option.ite_none_right_eq_some, Option.some.injEq] at hst
    obtain ⟨⟨hpos, -⟩, rfl⟩ := hst
    exact
      { alarms_le := le_rfl
        pos := by simpa using hpos
        last := by simp
        held := by simp [Pc.Holds]
        alone := nofun
        high_iff := by simpa [Act.failed] using fun _ => h.raised hpc
        raised := nofun }
  | past =>
    simp only [addAlarm, Option.some.injEq] at hst
    subst hst
    exact
      { alarms_le := h.alarms_le
        pos := h.pos
        last := h.last
        held := by simp [copPatternOffCb, hnil]
        alone := nofun
        high_iff := by simp [copPatternOffCb, hnil, Act.failed]
        raised := nofun }
  | noSlot error =>
    simp only [addAlarm, Option.ite_none_right_eq_some, Option.some.injEq] at hst
    obtain ⟨-, rfl⟩ := hst
    exact
      { alarms_le := h.alarms_le
        pos := h.pos
        last := h.last
        held := by simp [hnil]
        alone := fun _ => hnil
        high_iff := by simpa [Act.failed] using fun _ => h.raised hpc
        raised := nofun }

/-- The callback leaves no alarm behind and the output low, at whatever statement it comes. -/
theorem inv_fire (h : Inv failed s) {id : ℤ} (hid : ∃ a ∈ s.alarms, a.id = id) :
    Inv failed { copPatternOffCb s with alarms := cancelAlarm s.alarms id } := by
  obtain ⟨a, ha, rfl⟩ := hid
  have hnil := cancelAlarm_eq_nil fun b hb => h.id_eq hb ha
  have hfailed : failed ≠ true := fun hf => by simp [h.alone hf] at ha
  have hpc : s.pc ≠ .add := fun hpc => by
    have hheld := h.held a ha
    rw [hpc] at hheld
    exact hheld
  rw [hnil]
  exact
    { alarms_le := Nat.zero_le 1
      pos := by simp
      last := by simp
      held := by simp
      alone := fun hf => (hfailed hf).elim
      high_iff := by simp [copPatternOffCb, hfailed]
      raised := fun h => (hpc h).elim }

theorem inv_step {act : Act} (h : Inv failed s) (hst : step s act = some t) :
    Inv (act.failed failed) t := by
  cases act with
  | message data =>
    simp only [step, Option.ite_none_right_eq_some, Option.some.injEq] at hst
    obtain ⟨hpc, rfl⟩ := hst
    exact inv_message h hpc data
  | statement => exact inv_statement h hst
  | addAlarm o =>
    simp only [step, Option.ite_none_right_eq_some] at hst
    exact inv_addAlarm h hst.1 hst.2
  | fire id =>
    simp only [step, Option.ite_none_right_eq_some, Option.some.injEq] at hst
    obtain ⟨hid, rfl⟩ := hst
    exact inv_fire h hid

/-- Whether the last call of `add_alarm_in_ms` failed, after a run. -/
def failedAfter (as : List Act) (failed : Bool) : Bool :=
  as.foldl (fun b act => act.failed b) failed

theorem inv_run {as : List Act} (h : Inv failed s) (hrun : Machine.run step s as = some t) :
    Inv (failedAfter as failed) t := by
  induction as generalizing s failed with
  | nil =>
    cases hrun
    exact h
  | cons act as ih =>
    obtain ⟨u, hu, hrun⟩ := Option.bind_eq_some_iff.mp hrun
    exact ih (inv_step h hu) hrun

/-! ### When the pulses are bounded -/

theorem Act.findsSlot_cases (act : Act) :
    act.FindsSlot ∧ act.failed false = false ∨ ∃ error, act = .addAlarm (.noSlot error) := by
  rcases act with _ | _ | (_ | _ | error) | _
  case addAlarm.noSlot => exact .inr ⟨error, rfl⟩
  all_goals exact .inl ⟨trivial, rfl⟩

theorem Act.FindsSlot.failed_eq {act : Act} (h : act.FindsSlot) : act.failed false = false := by
  rcases act.findsSlot_cases with ⟨-, hfailed⟩ | ⟨error, rfl⟩
  · exact hfailed
  · exact h.elim

theorem failedAfter_eq_false {as : List Act} (h : ∀ act ∈ as, act.FindsSlot) :
    failedAfter as false = false := by
  induction as with
  | nil => rfl
  | cons act as ih =>
    have hact := (h act List.mem_cons_self).failed_eq
    have has := ih fun b hb => h b (List.mem_cons_of_mem _ hb)
    rw [failedAfter, List.foldl_cons, hact]
    exact has

theorem length_eq_one_iff_ne_nil {l : List Alarm} (h : l.length ≤ 1) : l.length = 1 ↔ l ≠ [] := by
  rw [← List.length_pos_iff]
  omega

/-- Where no trigger is in progress, the output is bounded exactly if the last alarm found a
slot. -/
theorem Inv.pulseBounded_iff (h : Inv failed s) (hpc : s.pc = .idle) :
    PulseBounded s ↔ failed = false := by
  have hhigh := h.high_iff (by simp [hpc, Pc.Settled])
  have hone := length_eq_one_iff_ne_nil h.alarms_le
  constructor
  · intro hs
    by_contra hfailed
    have hf : failed = true := by simpa using hfailed
    have hne := hone.mp (hs.high_iff.mp (hhigh.mpr (.inr hf)))
    exact hne (h.alone hf)
  · intro hf
    exact
      { alarms_le := h.alarms_le
        high_iff := by simpa [hf, hone] using hhigh
        last := h.last }

/-- After a failed `add_alarm_in_ms`, the assignment of its result comes next, and then the trigger
is over. -/
theorem statement_of_noSlot (h : Inv failed s) {error : ℤ} {act : Act} {u : State}
    (hadd : step s (.addAlarm (.noSlot error)) = some t) (hnext : step t act = some u) :
    act = .statement ∧ u.pc = .idle := by
  simp only [step, addAlarm, Option.ite_none_right_eq_some, Option.some.injEq] at hadd
  obtain ⟨hpc, -, rfl⟩ := hadd
  have hnil := h.alarms_eq_nil (by simp [hpc, Pc.Settled])
  cases act with
  | message data => simp [step] at hnext
  | statement =>
    simp only [step, statement, Option.some.injEq] at hnext
    subst hnext
    exact ⟨rfl, rfl⟩
  | addAlarm o => simp [step] at hnext
  | fire id => simp [step, hnil] at hnext

theorem pulseKept_of_findsSlot {as : List Act} (h : ∀ act ∈ as, act.FindsSlot) : PulseKept as := by
  intro bs t hbs hrun
  have hinv := inv_run Inv.init hrun
  rw [failedAfter_eq_false fun act hact => h act (hbs.subset hact)] at hinv
  exact ⟨hinv.last, fun hpc => (hinv.pulseBounded_iff hpc).mpr rfl⟩

/-- A run in which an alarm found no slot, and the trigger was over afterwards, reached a state in
which the output is high and nothing is going to lower it. -/
theorem findsSlot_of_pulseKept {as : List Act} (hrun : Machine.run step {} as = some s)
    (hpc : s.pc = .idle) (hkept : PulseKept as) : ∀ act ∈ as, act.FindsSlot := by
  intro act hact
  by_contra hslot
  obtain ⟨error, rfl⟩ := act.findsSlot_cases.resolve_left fun h => hslot h.1
  obtain ⟨before, after, rfl⟩ := List.append_of_mem hact
  rw [Machine.run_append] at hrun
  obtain ⟨u, hu, hrun⟩ := Option.bind_eq_some_iff.mp hrun
  obtain ⟨v, hv, hrun⟩ := Option.bind_eq_some_iff.mp hrun
  have hinv := inv_run Inv.init hu
  cases after with
  | nil =>
    -- The run would end inside the trigger.
    cases hrun
    simp only [step, addAlarm, Option.ite_none_right_eq_some, Option.some.injEq] at hv
    obtain ⟨-, -, rfl⟩ := hv
    simp at hpc
  | cons next after =>
    obtain ⟨w, hw, -⟩ := Option.bind_eq_some_iff.mp hrun
    obtain ⟨rfl, hidle⟩ := statement_of_noSlot hinv hv hw
    have hreach : Machine.run step {} (before ++ [.addAlarm (.noSlot error), .statement]) =
        some w := by
      rw [Machine.run_append, hu, Option.bind_some, Machine.run_cons, hv, Option.bind_some,
        Machine.run_cons, hw]
      rfl
    have hbounded := (hkept _ w ⟨after, by simp⟩ hreach).2 hidle
    have hw' := inv_step (inv_step hinv hv) hw
    simp [Act.failed, hw'.pulseBounded_iff hidle] at hbounded

/-- **When the pulses are bounded.** A run keeps the pulses bounded if every `add_alarm_in_ms`
finds a slot, whatever the messages and whenever the alarms fire; and only then, if it leaves no
trigger unfinished. -/
theorem pulseKept_iff {as : List Act} (hrun : Machine.run step {} as = some s) :
    ((∀ act ∈ as, act.FindsSlot) → PulseKept as) ∧
      (s.pc = .idle → PulseKept as → ∀ act ∈ as, act.FindsSlot) :=
  ⟨pulseKept_of_findsSlot, findsSlot_of_pulseKept hrun⟩

/-- A pulse whose alarm is taken out of the pool at the last moment: it fires when the second
trigger has read its id, and the call of `cancel_alarm` finds nothing. -/
def retriggered : List Act :=
  [.message 1, .message 2, .statement, .statement, .addAlarm (.pending 7), .statement, .message 2,
    .statement, .statement, .fire 7, .statement, .statement, .statement, .addAlarm (.pending 8),
    .statement]

theorem pulseKept_iff_retriggered : PulseKept retriggered ∧ ∀ act ∈ retriggered, act.FindsSlot := by
  have hslot : ∀ act ∈ retriggered, act.FindsSlot := by
    simp [retriggered, Act.FindsSlot, Outcome.FindsSlot]
  have hrun : Machine.run step {} retriggered = some
      { copLed := true, copPathern := true, copPatternAlarm := 8, alarms := [⟨8, 2⟩], pulses := 2,
        responses := [true, true, true] } := by
    decide
  exact ⟨(pulseKept_iff hrun).1 hslot, hslot⟩

/-- A message that asks for a pulse while the pool of the SDK has no free slot. -/
def exhaustedPool : List Act :=
  [.message 1, .message 2, .statement, .statement, .addAlarm (.noSlot (-1)), .statement]

/-- The output stays high, with no alarm that will lower it, and the response is `true`. -/
theorem exhaustedPool_not_pulseBounded :
    ∃ s, Machine.run step {} exhaustedPool = some s ∧ s.pc = .idle ∧ s.copPathern = true ∧
      s.alarms = [] ∧ s.responses = [true, true] ∧ ¬ PulseBounded s := by
  have hrun : Machine.run step {} exhaustedPool = some
      { copLed := true, copPathern := true, pulses := 1, responses := [true, true] } := by
    decide
  exact ⟨_, hrun, rfl, rfl, rfl, rfl, fun h => by simpa using h.high_iff⟩

end PicoUros.Cop
