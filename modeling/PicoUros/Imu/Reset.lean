import PicoUros.Imu.Driver

/-!
# Resets of the sensor hub

`wasReset` is only asked after an event has been found, and after a reset the hub is silent. A
reset that is received by a call of `getSensorEvent` that finds no event is therefore never noticed:
`_reset_occurred` stays set, and no report is enabled again. A reset that is received while an
enable call repeats its write is noticed with the next event, since the hub reports again after
this call.

## Main definitions

* `CalledWithin`, `Recovers`: the enable calls come in time after a reset.
* `ResetsSeen`: the condition on the notifications.
* `Mute`: the state after a lost reset.

## Main results

* `recovers_iff`: after every reset the three enable calls are made before the end of the next full
  iteration exactly if `ResetsSeen` holds.
* `mute_run`: after a lost reset no enable call is ever made.
* `lostReset_not_recovers`: a run with a lost reset.
-/

namespace PicoUros.Imu

variable {F : Type*}

/-! ### Recovery -/

/-- Before the iteration end number `n` of `log`, all three enable calls are made. -/
def CalledWithin (n : ℕ) (log : List Event) : Prop :=
  ∀ pre, pre <+: log → n ≤ pre.count .endIteration → ∀ r, .call r ∈ pre

/-- After every reset the three enable calls are made before the end of the next full iteration.
The first iteration end after the reset is that of the iteration that it is received in. -/
def Recovers (log : List Event) : Prop :=
  ∀ post, .resetComplete :: post <:+ log → CalledWithin 2 post

/-- For each call of `getSensorEvent`, whether the notifications leave an event. -/
def pollEvents : UInt8 → List (Act F) → List Bool
  | _, [] => []
  | id, .poll ns :: as => decide (LeavesEvent id ns) :: pollEvents (lastId id ns) as
  | id, .nack ns :: as => pollEvents (lastId id ns) as
  | id, .ack :: as => pollEvents id as

/-- A reset that a call of `getSensorEvent` receives comes with an event, or this call is the last
step. After a reset that an enable call receives, one of the next two calls of `getSensorEvent` gets
an event, if there are two. -/
def ResetsSeen : UInt8 → List (Act F) → Prop
  | _, [] => True
  | id, .poll ns :: as =>
    (.resetComplete ∈ resets ns → LeavesEvent id ns ∨ as = []) ∧ ResetsSeen (lastId id ns) as
  | id, .nack ns :: as =>
    (.resetComplete ∈ resets ns → (pollEvents (lastId id ns) as).take 2 ≠ [false, false]) ∧
      ResetsSeen (lastId id ns) as
  | id, .ack :: as => ResetsSeen id as

instance decidableResetsSeen : (id : UInt8) → (as : List (Act F)) → Decidable (ResetsSeen id as)
  | _, [] => .isTrue trivial
  | id, .poll ns :: as =>
    have := decidableResetsSeen (lastId id ns) as
    have : Decidable (as = []) := decidable_of_iff as.isEmpty List.isEmpty_iff
    inferInstanceAs (Decidable ((_ → _ ∨ _) ∧ _))
  | id, .nack ns :: as =>
    have := decidableResetsSeen (lastId id ns) as
    inferInstanceAs (Decidable ((_ → _) ∧ _))
  | id, .ack :: as => decidableResetsSeen id as

/-! ### Lists of events -/

theorem mem_resets {ns : List (Note F)} {e : Event} (h : e ∈ resets ns) : e = .resetComplete := by
  induction ns with
  | nil => exact absurd h List.not_mem_nil
  | cons n ns ih =>
    cases n with
    | sensor _ => exact ih h
    | resetComplete => exact (List.mem_cons.mp h).elim id ih

theorem not_mem_resets {ns : List (Note F)} {e : Event} (he : e ≠ .resetComplete) :
    e ∉ resets ns :=
  fun h => he (mem_resets h)

/-- A beginning of `l ++ log` with an iteration end goes beyond `l`, if `l` has none. -/
theorem exists_of_isPrefix_append {l log pre : List Event} (hl : .endIteration ∉ l)
    (hpre : pre <+: l ++ log) (hcount : 1 ≤ pre.count .endIteration) :
    ∃ pre', pre' <+: log ∧ pre = l ++ pre' := by
  rcases List.prefix_or_prefix_of_prefix hpre (List.prefix_append l log) with h | ⟨pre', rfl⟩
  · exact absurd (h.subset (List.count_pos_iff.mp hcount)) hl
  · exact ⟨pre', (List.prefix_append_right_inj l).mp hpre, rfl⟩

namespace CalledWithin

variable {n : ℕ} {log : List Event}

theorem nil (h : 1 ≤ n) : CalledWithin n [] := by
  intro pre hpre hcount
  rw [List.prefix_nil.mp hpre, List.count_nil] at hcount
  omega

theorem append {l : List Event} (h : CalledWithin n log) (hl : .endIteration ∉ l) (hn : 1 ≤ n) :
    CalledWithin n (l ++ log) := by
  intro pre hpre hcount r
  obtain ⟨pre', hpre', rfl⟩ := exists_of_isPrefix_append hl hpre (Nat.le_trans hn hcount)
  rw [List.count_append, List.count_eq_zero_of_not_mem hl, Nat.zero_add] at hcount
  exact List.mem_append_right _ (h pre' hpre' hcount r)

theorem endIteration (h : CalledWithin n log) : CalledWithin (n + 1) (.endIteration :: log) := by
  intro pre hpre hcount r
  cases pre with
  | nil => simp at hcount
  | cons e pre =>
    obtain ⟨rfl, hpre'⟩ := List.cons_prefix_cons.mp hpre
    rw [List.count_cons_self] at hcount
    exact List.mem_cons_of_mem _ (h pre hpre' (Nat.le_of_succ_le_succ hcount) r)

/-- Resets in front make no difference. -/
theorem of_append {ns : List (Note F)} (h : CalledWithin n (resets ns ++ log)) :
    CalledWithin n log := by
  intro pre hpre hcount r
  have hmem := h (resets ns ++ pre) ((List.prefix_append_right_inj _).mpr hpre)
    (Nat.le_trans hcount (by rw [List.count_append]; exact Nat.le_add_left _ _)) r
  exact (List.mem_append.mp hmem).resolve_left (not_mem_resets (by simp))

end CalledWithin

theorem recovers_cons {e : Event} {log : List Event} :
    Recovers (e :: log) ↔ (e = .resetComplete → CalledWithin 2 log) ∧ Recovers log := by
  constructor
  · intro h
    refine ⟨?_, fun post hpost => h post (hpost.trans (List.suffix_cons _ _))⟩
    rintro rfl
    exact h log (List.suffix_refl _)
  · rintro ⟨he, hlog⟩ post hpost
    rcases List.suffix_cons_iff.mp hpost with heq | hpost
    · obtain ⟨rfl, rfl⟩ := List.cons.inj heq
      exact he rfl
    · exact hlog post hpost

theorem recovers_cons_of_ne {e : Event} {log : List Event} (he : e ≠ .resetComplete) :
    Recovers (e :: log) ↔ Recovers log := by
  rw [recovers_cons]
  exact and_iff_right fun h => absurd h he

theorem recovers_resets_append (ns : List (Note F)) (log : List Event) :
    Recovers (resets ns ++ log) ↔
      (.resetComplete ∈ resets ns → CalledWithin 2 log) ∧ Recovers log := by
  induction ns with
  | nil => simp [resets]
  | cons n ns ih =>
    cases n with
    | sensor _ => exact ih
    | resetComplete =>
      rw [resets, List.cons_append, recovers_cons, ih]
      constructor
      · rintro ⟨h, -, hlog⟩
        exact ⟨fun _ => (h rfl).of_append, hlog⟩
      · rintro ⟨h, hlog⟩
        have hlog2 := h List.mem_cons_self
        exact ⟨fun _ => hlog2.append (not_mem_resets (by simp)) (by omega), fun _ => hlog2, hlog⟩

/-! ### Runs -/

section Runs

variable {s t : State F} {as : List (Act F)}

theorem step_log {a : Act F} (h : step s a = some t) : ∃ log, t.log = s.log ++ log := by
  cases a with
  | poll ns =>
    obtain ⟨-, -, -, ⟨-, -, hlog, -⟩ | ⟨-, -, -, -, hlog⟩ | ⟨-, -, hlog⟩⟩ := step_poll h
    all_goals exact ⟨_, hlog⟩
  | nack ns =>
    obtain ⟨r, -, -, -, -, hlog, -⟩ := step_nack h
    exact ⟨_, hlog⟩
  | ack =>
    obtain ⟨r, -, -, -, ⟨-, -, hlog⟩ | ⟨r', -, -, hlog⟩⟩ := step_ack h
    · exact ⟨[], by rw [hlog, List.append_nil]⟩
    · exact ⟨_, hlog⟩

theorem run_log (h : Machine.run step s as = some t) : ∃ log, t.log = s.log ++ log := by
  have hstep : ∀ u (a : Act F) v, (∃ log, u.log = s.log ++ log) → step u a = some v →
      ∃ log, v.log = s.log ++ log := by
    rintro u a v ⟨log, hlog⟩ hv
    obtain ⟨log', hlog'⟩ := step_log hv
    exact ⟨log ++ log', by rw [hlog', hlog, List.append_assoc]⟩
  exact Machine.inv_of_run hstep ⟨[], (List.append_nil _).symm⟩ h

/-- The enable calls that come after a call. -/
def Report.later : Report → List Report
  | .rotationVector => [.gyro, .linearAccelerometer]
  | .gyro => [.linearAccelerometer]
  | .linearAccelerometer => []

theorem Report.later_of_next {r r' : Report} (h : r.next = some r') :
    r.later = r' :: r'.later := by
  cases r <;> cases h <;> rfl

theorem Report.later_of_none {r : Report} (h : r.next = none) : r.later = [] := by
  cases r with
  | rotationVector => cases h
  | gyro => cases h
  | linearAccelerometer => rfl

/-- An iteration does not end before the enable calls that remain. -/
theorem run_enable (h : Machine.run step s as = some t) {r : Report} (hpc : s.pc = .enable r) :
    ∃ log, t.log = s.log ++ log ∧
      ∀ pre, pre <+: log → 1 ≤ pre.count .endIteration → ∀ r' ∈ r.later, .call r' ∈ pre := by
  induction as generalizing s r with
  | nil =>
    cases h
    refine ⟨[], (List.append_nil _).symm, fun pre hpre hcount => ?_⟩
    rw [List.prefix_nil.mp hpre, List.count_nil] at hcount
    omega
  | cons a as ih =>
    obtain ⟨u, hu, hrun⟩ := Option.bind_eq_some_iff.mp h
    cases a with
    | poll ns => exact absurd ((step_poll hu).1.symm.trans hpc) (by simp)
    | nack ns =>
      obtain ⟨r', hr', hpcu, -, -, hlog, -⟩ := step_nack hu
      obtain rfl : r' = r := by simpa using hr'.symm.trans hpc
      obtain ⟨log, hlogt, hcalls⟩ := ih hrun hpcu
      refine ⟨resets ns ++ log, by rw [hlogt, hlog, List.append_assoc], ?_⟩
      intro pre hpre hcount r hr
      have hend : Event.endIteration ∉ resets ns := not_mem_resets (by simp)
      obtain ⟨pre', hpre', rfl⟩ := exists_of_isPrefix_append hend hpre hcount
      rw [List.count_append, List.count_eq_zero_of_not_mem hend, Nat.zero_add] at hcount
      exact List.mem_append_right _ (hcalls pre' hpre' hcount r hr)
    | ack =>
      obtain ⟨r₀, hr₀, -, -, hnext⟩ := step_ack hu
      obtain rfl : r₀ = r := by simpa using hr₀.symm.trans hpc
      rcases hnext with ⟨hnext, -, -⟩ | ⟨r', hnext, hpcu, hlog⟩
      · obtain ⟨log, hlogt⟩ := run_log h
        refine ⟨log, hlogt, fun _ _ _ r' hr' => ?_⟩
        rw [Report.later_of_none hnext] at hr'
        exact absurd hr' List.not_mem_nil
      · obtain ⟨log, hlogt, hcalls⟩ := ih hrun hpcu
        refine ⟨[.call r'] ++ log, by rw [hlogt, hlog, List.append_assoc], ?_⟩
        intro pre hpre hcount r hr
        obtain ⟨pre', hpre', rfl⟩ := exists_of_isPrefix_append (by simp) hpre hcount
        rw [List.count_append, List.count_eq_zero_of_not_mem (by simp), Nat.zero_add] at hcount
        rw [Report.later_of_next hnext] at hr
        rcases List.mem_cons.mp hr with rfl | hr
        · exact List.mem_append_left _ List.mem_cons_self
        · exact List.mem_append_right _ (hcalls pre' hpre' hcount r hr)

theorem calledWithin_of_enable {n : ℕ} (hn : 1 ≤ n) (h : Machine.run step s as = some t)
    (hpc : s.pc = .enable .rotationVector) :
    ∃ log, t.log = s.log ++ log ∧ CalledWithin n ([.call .rotationVector] ++ log) := by
  obtain ⟨log, hlog, hcalls⟩ := run_enable h hpc
  refine ⟨log, hlog, fun pre hpre hcount r => ?_⟩
  obtain ⟨pre', hpre', rfl⟩ := exists_of_isPrefix_append (by simp) hpre (Nat.le_trans hn hcount)
  rw [List.count_append, List.count_eq_zero_of_not_mem (by simp), Nat.zero_add] at hcount
  have hlater := hcalls pre' hpre' (Nat.le_trans hn hcount)
  cases r with
  | rotationVector => exact List.mem_append_left _ List.mem_cons_self
  | gyro => exact List.mem_append_right _ (hlater _ (by decide))
  | linearAccelerometer => exact List.mem_append_right _ (hlater _ (by decide))

/-- A reset that is noticed: if `_reset_occurred` is set and one of the next `n` calls of
`getSensorEvent` gets an event, the enable calls are made before the iteration end number `n`. -/
theorem calledWithin_of_seen {n : ℕ} (hn : 1 ≤ n) (h : Machine.run step s as = some t)
    (hflag : s.flag = true) (hseen : (pollEvents s.id as).take n ≠ List.replicate n false) :
    ∃ log, t.log = s.log ++ log ∧ CalledWithin n log := by
  induction as generalizing s n with
  | nil =>
    cases h
    exact ⟨[], (List.append_nil _).symm, .nil hn⟩
  | cons a as ih =>
    obtain ⟨u, hu, hrun⟩ := Option.bind_eq_some_iff.mp h
    cases a with
    | poll ns =>
      obtain ⟨-, -, hid, ⟨hno, -, hlog, hflagu⟩ | ⟨-, hflags, -⟩ | ⟨-, hpcu, hlog⟩⟩ := step_poll hu
      · -- The poll finds no event and ends an iteration.
        obtain ⟨n, rfl⟩ := Nat.exists_eq_succ_of_ne_zero (Nat.ne_of_gt hn)
        rw [pollEvents, decide_eq_false hno, List.take_succ_cons, List.replicate_succ, Ne,
          List.cons_inj_right, ← hid] at hseen
        rcases Nat.eq_zero_or_pos n with rfl | hpos
        · exact absurd List.take_zero hseen
        · obtain ⟨log, hlogt, hcalled⟩ := ih hpos hrun (hflagu.mpr (.inl hflag)) hseen
          refine ⟨resets ns ++ .endIteration :: log, by simp [hlogt, hlog], ?_⟩
          exact hcalled.endIteration.append (not_mem_resets (by simp)) hn
      · exact absurd (hflag.symm.trans hflags) (by simp)
      · -- The poll finds an event: `wasReset` leads to the enable calls.
        obtain ⟨log, hlogt, hcalled⟩ := calledWithin_of_enable hn hrun hpcu
        exact ⟨resets ns ++ ([.call .rotationVector] ++ log), by simp [hlogt, hlog],
          hcalled.append (not_mem_resets (by simp)) hn⟩
    | nack ns =>
      obtain ⟨r, -, -, -, hid, hlog, hflagu⟩ := step_nack hu
      rw [pollEvents, ← hid] at hseen
      obtain ⟨log, hlogt, hcalled⟩ := ih hn hrun (hflagu.mpr (.inl hflag)) hseen
      exact ⟨resets ns ++ log, by rw [hlogt, hlog, List.append_assoc],
        hcalled.append (not_mem_resets (by simp)) hn⟩
    | ack =>
      obtain ⟨r, -, hid, hflagu, ⟨-, -, hlog⟩ | ⟨r', -, -, hlog⟩⟩ := step_ack hu
      all_goals
        rw [pollEvents, ← hid] at hseen
        obtain ⟨log, hlogt, hcalled⟩ := ih hn hrun (hflagu.trans hflag) hseen
      · exact ⟨log, by rw [hlogt, hlog], hcalled⟩
      · exact ⟨[.call r'] ++ log, by rw [hlogt, hlog, List.append_assoc],
          hcalled.append (by simp) hn⟩

/-- A reset that is not noticed: if none of the next `n` calls of `getSensorEvent` gets an event,
`n` iterations end without a call of `enableRotationVector`. -/
theorem exists_not_called {n : ℕ} (h : Machine.run step s as = some t)
    (hmissed : (pollEvents s.id as).take n = List.replicate n false) :
    ∃ log, t.log = s.log ++ log ∧ ∃ pre, pre <+: log ∧ n ≤ pre.count .endIteration ∧
      .call .rotationVector ∉ pre := by
  induction as generalizing s n with
  | nil =>
    cases h
    obtain rfl : n = 0 := by simpa [pollEvents, eq_comm] using congrArg List.length hmissed
    exact ⟨[], (List.append_nil _).symm, [], List.prefix_refl _, Nat.zero_le _, List.not_mem_nil⟩
  | cons a as ih =>
    obtain ⟨u, hu, hrun⟩ := Option.bind_eq_some_iff.mp h
    rcases Nat.eq_zero_or_pos n with rfl | hpos
    · obtain ⟨log, hlog⟩ := run_log h
      exact ⟨log, hlog, [], List.nil_prefix, Nat.zero_le _, List.not_mem_nil⟩
    obtain ⟨n, rfl⟩ := Nat.exists_eq_succ_of_ne_zero (Nat.ne_of_gt hpos)
    cases a with
    | poll ns =>
      rw [pollEvents, List.take_succ_cons, List.replicate_succ] at hmissed
      obtain ⟨hno, hmissed⟩ := List.cons.inj hmissed
      have hno := of_decide_eq_false hno
      obtain ⟨-, -, hid, ⟨-, -, hlog, -⟩ | ⟨hl, -⟩ | ⟨hl, -⟩⟩ := step_poll hu
      · rw [← hid] at hmissed
        obtain ⟨log, hlogt, pre, hpre, hcount, hcall⟩ := ih hrun hmissed
        refine ⟨resets ns ++ ([.endIteration] ++ log), by simp [hlogt, hlog],
          resets ns ++ ([.endIteration] ++ pre), by simpa using hpre, ?_, ?_⟩
        · simp only [List.count_append, List.count_singleton_self]
          omega
        · simpa [not_mem_resets] using hcall
      · exact absurd hl hno
      · exact absurd hl hno
    | nack ns =>
      obtain ⟨r, -, -, -, hid, hlog, -⟩ := step_nack hu
      rw [pollEvents, ← hid] at hmissed
      obtain ⟨log, hlogt, pre, hpre, hcount, hcall⟩ := ih hrun hmissed
      refine ⟨resets ns ++ log, by rw [hlogt, hlog, List.append_assoc], resets ns ++ pre,
        (List.prefix_append_right_inj _).mpr hpre, ?_, by simpa [not_mem_resets] using hcall⟩
      rw [List.count_append]
      omega
    | ack =>
      obtain ⟨r, -, hid, -, ⟨-, -, hlog⟩ | ⟨r', hnext, -, hlog⟩⟩ := step_ack hu
      all_goals
        rw [pollEvents, ← hid] at hmissed
        obtain ⟨log, hlogt, pre, hpre, hcount, hcall⟩ := ih hrun hmissed
      · exact ⟨log, by rw [hlogt, hlog], pre, hpre, hcount, hcall⟩
      · have hne : r' ≠ .rotationVector := by
          rintro rfl
          cases r <;> cases hnext
        refine ⟨[.call r'] ++ log, by rw [hlogt, hlog, List.append_assoc], [.call r'] ++ pre,
          (List.prefix_append_right_inj _).mpr hpre, ?_, ?_⟩
        · rw [List.count_append]
          omega
        · simpa [hne.symm] using hcall

/-! ### A lost reset -/

/-- The hub is silent, core 1 polls, and `_sensor_value` holds no id that counts as an event. -/
structure Mute (s : State F) : Prop where
  pc : s.pc = .poll
  silent : s.silent = true
  id : s.id ≠ gyroIntegratedRv

/-- A silent hub sends no report. -/
theorem not_leavesEvent_of_silent {ns : List (Note F)} {silent : Bool} {id : UInt8}
    (h : hubSend true ns = some silent) (hid : id ≠ gyroIntegratedRv) :
    silent = true ∧ lastId id ns = id ∧ ¬ LeavesEvent id ns := by
  have hns : silent = true ∧ lastId id ns = id ∧ ∀ t, lastTimestamp t ns = t := by
    induction ns with
    | nil => exact ⟨(Option.some.inj h).symm, rfl, fun _ => rfl⟩
    | cons n ns ih =>
      cases n with
      | sensor e => cases h
      | resetComplete => exact ih h
  refine ⟨hns.1, hns.2.1, ?_⟩
  rw [LeavesEvent, hns.2.1, hns.2.2]
  simpa using hid

/-- After a reset the hub is silent until the end of the service. -/
theorem silent_of_mem_resets {ns : List (Note F)} {silent silent' : Bool}
    (h : hubSend silent ns = some silent') (hns : .resetComplete ∈ resets ns) : silent' = true := by
  induction ns generalizing silent with
  | nil => exact absurd hns List.not_mem_nil
  | cons n ns ih =>
    cases n with
    | sensor e =>
      rw [hubSend] at h
      split_ifs at h
      exact ih h hns
    | resetComplete =>
      rw [hubSend] at h
      by_cases hmem : .resetComplete ∈ resets ns
      · exact ih h hmem
      · exact (not_leavesEvent_of_silent h (by decide : (0 : UInt8) ≠ gyroIntegratedRv)).1

theorem mute_of_lost {ns : List (Note F)} (h : step s (.poll ns) = some t)
    (hns : .resetComplete ∈ resets ns) (hno : ¬ LeavesEvent s.id ns) : Mute t := by
  obtain ⟨-, hsend, hid, ⟨-, hpc, -⟩ | ⟨hl, -⟩ | ⟨hl, -⟩⟩ := step_poll h
  · refine ⟨hpc, silent_of_mem_resets hsend hns, ?_⟩
    rw [hid]
    exact fun hlast => hno (.inr hlast)
  · exact absurd hl hno
  · exact absurd hl hno

theorem mute_step {a : Act F} (hs : Mute s) (h : step s a = some t) :
    Mute t ∧ ∃ ns, a = .poll ns ∧ ¬ LeavesEvent s.id ns ∧
      t.log = s.log ++ (resets ns ++ [.endIteration]) := by
  cases a with
  | poll ns =>
    obtain ⟨-, hsend, hid, hcases⟩ := step_poll h
    rw [hs.silent] at hsend
    obtain ⟨hsilent, hlast, hno⟩ := not_leavesEvent_of_silent hsend hs.id
    obtain ⟨-, hpc, hlog, -⟩ | ⟨hl, -⟩ | ⟨hl, -⟩ := hcases
    · exact ⟨⟨hpc, hsilent, by rw [hid, hlast]; exact hs.id⟩, ns, rfl, hno, hlog⟩
    · exact absurd hl hno
    · exact absurd hl hno
  | nack ns =>
    obtain ⟨r, hpc, -⟩ := step_nack h
    exact absurd (hs.pc.symm.trans hpc) (by simp)
  | ack =>
    obtain ⟨r, hpc, -⟩ := step_ack h
    exact absurd (hs.pc.symm.trans hpc) (by simp)

/-- **After a lost reset the loop goes on forever without an enable call**: every further step
ends an iteration, and none of them makes a call. -/
theorem mute_run (hs : Mute s) (h : Machine.run step s as = some t) :
    Mute t ∧ t.log.count .endIteration = s.log.count .endIteration + as.length ∧
      ∀ r, t.log.count (.call r) = s.log.count (.call r) := by
  induction as generalizing s with
  | nil =>
    cases h
    exact ⟨hs, rfl, fun _ => rfl⟩
  | cons a as ih =>
    obtain ⟨u, hu, hrun⟩ := Option.bind_eq_some_iff.mp h
    obtain ⟨hmute, ns, -, -, hlog⟩ := mute_step hs hu
    obtain ⟨ht, hend, hcall⟩ := ih hmute hrun
    refine ⟨ht, ?_, fun r => ?_⟩
    · rw [hend, hlog, List.count_append, List.count_append,
        List.count_eq_zero_of_not_mem (not_mem_resets (by simp)), List.count_singleton_self,
        List.length_cons]
      omega
    · have hns : Event.call r ∉ resets ns := not_mem_resets (by simp)
      have hend : Event.call r ∉ [Event.endIteration] := by simp
      rw [hcall, hlog, List.count_append, List.count_append, List.count_eq_zero_of_not_mem hns,
        List.count_eq_zero_of_not_mem hend, Nat.add_zero]

/-! ### The condition -/

theorem recovers_iff_of (h : Machine.run step s as = some t) :
    ∃ log, t.log = s.log ++ log ∧ (Recovers log ↔ ResetsSeen s.id as) := by
  induction as generalizing s with
  | nil =>
    cases h
    refine ⟨[], (List.append_nil _).symm, iff_of_true (fun post hpost => ?_) trivial⟩
    exact absurd (List.suffix_nil.mp hpost) (List.cons_ne_nil _ _)
  | cons a as ih =>
    obtain ⟨u, hu, hrun⟩ := Option.bind_eq_some_iff.mp h
    obtain ⟨log, hlogt, hiff⟩ := ih hrun
    cases a with
    | poll ns =>
      obtain ⟨-, -, hid, hcases⟩ := step_poll hu
      rw [hid] at hiff
      obtain ⟨hno, hpc, hlog, -⟩ | ⟨hl, -, hns, -, hlog⟩ | ⟨hl, hpc, hlog⟩ := hcases
      · refine ⟨resets ns ++ .endIteration :: log, by simp [hlogt, hlog], ?_⟩
        rw [recovers_resets_append, recovers_cons_of_ne (by simp), hiff, ResetsSeen]
        refine and_congr_left' (forall_congr' fun hns => ?_)
        rw [or_iff_right hno]
        constructor
        · -- The hub is silent now, so a further poll would end a second iteration.
          intro hcalled
          cases as with
          | nil => rfl
          | cons b as =>
            obtain ⟨v, hv, -⟩ := Option.bind_eq_some_iff.mp hrun
            obtain ⟨-, ns', rfl, hno', -⟩ := mute_step (mute_of_lost hu hns hno) hv
            have hmissed : (pollEvents u.id (.poll ns' :: as)).take 1 = List.replicate 1 false := by
              rw [pollEvents, decide_eq_false hno']
              rfl
            obtain ⟨log', hlogt', pre, hpre, hcount, hcall⟩ := exists_not_called hrun hmissed
            obtain rfl := List.append_cancel_left (hlogt'.symm.trans hlogt)
            have hmem := hcalled (.endIteration :: pre) (List.cons_prefix_cons.mpr ⟨rfl, hpre⟩)
              (by rw [List.count_cons_self]; exact Nat.succ_le_succ hcount) .rotationVector
            exact absurd (List.mem_of_ne_of_mem (by simp) hmem) hcall
        · rintro rfl
          cases hrun
          rw [List.append_right_eq_self.mp hlogt.symm]
          intro pre hpre hcount
          have hle := hpre.sublist.count_le .endIteration
          exact absurd (Nat.le_trans hcount hle) (by decide)
      · refine ⟨resets ns ++ log, by rw [hlogt, hlog, List.append_assoc], ?_⟩
        rw [recovers_resets_append, hiff, ResetsSeen]
        exact and_congr_left' (iff_of_true (fun h => absurd h hns) fun h => absurd h hns)
      · obtain ⟨log', hlogt', hcalled⟩ := calledWithin_of_enable (n := 2) (by omega) hrun hpc
        obtain rfl := List.append_cancel_left (hlogt'.symm.trans hlogt)
        refine ⟨resets ns ++ .call .rotationVector :: log', by simp [hlogt, hlog], ?_⟩
        rw [recovers_resets_append, recovers_cons_of_ne (by simp), hiff, ResetsSeen]
        exact and_congr_left' (iff_of_true (fun _ => hcalled) fun _ => .inl hl)
    | nack ns =>
      obtain ⟨r, -, -, -, hid, hlog, hflag⟩ := step_nack hu
      rw [hid] at hiff
      refine ⟨resets ns ++ log, by rw [hlogt, hlog, List.append_assoc], ?_⟩
      rw [recovers_resets_append, hiff, ResetsSeen, ← hid]
      refine and_congr_left' (forall_congr' fun hns => ?_)
      constructor
      · intro hcalled hmissed
        obtain ⟨log', hlogt', pre, hpre, hcount, hcall⟩ := exists_not_called (n := 2) hrun hmissed
        obtain rfl := List.append_cancel_left (hlogt'.symm.trans hlogt)
        exact hcall (hcalled pre hpre hcount _)
      · intro hseen
        obtain ⟨log', hlogt', hcalled⟩ :=
          calledWithin_of_seen (by omega) hrun (hflag.mpr (.inr hns)) hseen
        obtain rfl := List.append_cancel_left (hlogt'.symm.trans hlogt)
        exact hcalled
    | ack =>
      obtain ⟨r, -, hid, -, ⟨-, -, hlog⟩ | ⟨r', -, -, hlog⟩⟩ := step_ack hu
      all_goals rw [hid] at hiff
      · exact ⟨log, by rw [hlogt, hlog], hiff⟩
      · exact ⟨.call r' :: log, by simp [hlogt, hlog], (recovers_cons_of_ne (by simp)).trans hiff⟩

end Runs

section Main

variable {imu : ImuT F} {un : Fin 4 → F} {resetOccurred : Bool}

/-- **When core 1 recovers from resets.** After every reset the three enable calls are made before
the end of the next full iteration exactly if every reset is seen. -/
theorem recovers_iff {s : State F} {as : List (Act F)}
    (h : Machine.run step (.start imu un resetOccurred) as = some s) :
    Recovers s.log ↔ ResetsSeen 0 as := by
  obtain ⟨log, hlog, hiff⟩ := recovers_iff_of h
  rwa [hlog]

end Main

/-- An event leads to the enable calls. A reset comes while the first of them repeats its write, and
is seen with the next event. -/
def retriedWrite : List (Act ℕ) :=
  let event : Note ℕ := .sensor ⟨0x05, 7000, fun _ => 0⟩
  [.poll [event], .nack [.resetComplete], .ack, .ack, .ack, .poll [event], .ack, .ack, .ack,
    .poll [], .poll []]

def zeroImu : ImuT ℕ := ⟨0, 0, 0, 0, 0, 0, 0, 0, 0, 0⟩

theorem recovers_iff_retriedWrite :
    ∃ s, Machine.run step (.start zeroImu (fun _ => 0) true) retriedWrite = some s ∧
      s.log.count .resetComplete = 1 ∧ s.log.count .endIteration = 2 ∧ Recovers s.log :=
  have hseen : ResetsSeen 0 retriedWrite := by decide
  ⟨_, rfl, rfl, rfl, (recovers_iff
    (show Machine.run step (.start zeroImu (fun _ => 0) true) retriedWrite = some _ from rfl)).mpr
    hseen⟩

/-- The hub is reset between two reports. -/
def lostReset : List (Act ℕ) :=
  [.poll [.sensor ⟨0x05, 7000, fun _ => 0⟩], .poll [], .poll [.resetComplete], .poll []]

/-- After this reset an iteration ends and another one follows without an enable call. -/
theorem lostReset_not_recovers :
    ∃ s, Machine.run step (.start zeroImu (fun _ => 0) false) lostReset = some s ∧
      ¬ Recovers s.log := by
  refine ⟨_, rfl, fun h => ?_⟩
  have hcalled := h [.endIteration, .endIteration] ⟨[.endIteration], rfl⟩ _ (List.prefix_refl _)
    (by decide) .gyro
  exact absurd hcalled (by decide)

end PicoUros.Imu
