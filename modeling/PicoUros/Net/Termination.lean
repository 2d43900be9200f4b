import PicoUros.Lib.Fairness
import PicoUros.Net.Boundaries
import PicoUros.Net.Registers

/-!
# Every UDP read returns

The socket is opened in blocking mode, and the waiting loop of `recvfrom` has no timeout. The
transport enters it only after it has read a size that is not zero, and only its own commands make
this size smaller.

A call ends because its statements are in order but for the loop around `recvfrom`, which the clock
ends. `getSn_RX_RSR` ends because the register stops growing: while it stays the same, two reads
agree.

## Main definitions

* `BusState.rank`: how far the driver is from the end of a call whose time is over.
* `InCall`, `Late`, `Returned`: a call in progress, the end of its time, and its own end.
* `FairExecution`: the driver moves when it can, and the clock advances.
* `Unblocked`: what the waiting loop and the results of the calls have in every state.

## Main results

* `late_step`: a step of the driver lowers the rank, and no other step raises it.
* `transportRead_returns`: no call waits on an empty socket, and every call returns.
* `tornRead_not_leavesAtOnce`: a torn read of the register costs one more pass of the waiting loop.
-/

namespace PicoUros.Net

/-! ### The rank -/

/-- How many steps `getSn_RX_RSR` still takes if the register keeps the value `rsr`. A result `0` of
a larger register comes last: it is the reason for another call. -/
def RsrRead.rank (rsr : ℕ) : RsrRead → ℕ
  | .high val => if val = rsr then 2 else 4
  | .low prevVal hi =>
    if hi = 0 ∧ 256 ≤ rsr then 11
    else if hi = rsr / 256 then if prevVal = rsr then 1 else 3
    else 5
  | .done val => if val = 0 ∧ 256 ≤ rsr then 10 else 0

theorem RsrRead.rank_le (r : RsrRead) (rsr : ℕ) : r.rank rsr ≤ 11 := by
  cases r <;> simp only [RsrRead.rank] <;> split_ifs <;> omega

theorem RsrRead.rank_start_le (rsr : ℕ) : RsrRead.start.rank rsr ≤ 4 := by
  simp only [RsrRead.start, RsrRead.rank]
  split_ifs <;> omega

theorem RsrRead.rank_next_lt {r : RsrRead} (hr : ∀ val, r ≠ .done val) (rsr : ℕ) :
    (r.next rsr).rank rsr < r.rank rsr := by
  cases r with
  | high val =>
    simp only [RsrRead.next, RsrRead.rank]
    split_ifs <;> omega
  | low p hi =>
    simp only [RsrRead.next]
    by_cases hval : hi * 256 + rsr % 256 = p
    · rw [if_pos hval]
      simp only [RsrRead.rank]
      split_ifs <;> omega
    · rw [if_neg hval]
      simp only [RsrRead.rank]
      split_ifs <;> omega
  | done val => exact (hr val rfl).elim

/-- The rank falls with every growth of the register, whatever the reading. -/
def registerRank (r : RsrRead) (rsr : ℕ) : ℕ := 12 * (65535 - rsr) + r.rank rsr

theorem registerRank_mono {r : RsrRead} {rsr rsr' : ℕ} (hle : rsr ≤ rsr') (hlt : rsr' < 65536) :
    registerRank r rsr' ≤ registerRank r rsr := by
  rcases hle.eq_or_lt with rfl | hgrows
  · exact le_rfl
  · have hbound := r.rank_le rsr'
    unfold registerRank
    omega

/-- How far the driver is from the end of a call whose time is over. -/
def BusState.rank (b : BusState) : ℕ :=
  match b.drv.pc with
  | .poll _ => 20 + registerRank b.reading b.drv.chip.rsr
  | .wait _ => 7 + registerRank b.reading b.drv.chip.rsr
  | pc => pc.rank

theorem BusState.rank_of_not_reads {b : BusState} (h : ¬ b.drv.pc.Reads) :
    b.rank = b.drv.pc.rank := by
  unfold BusState.rank
  cases hpc : b.drv.pc <;> first
    | rfl
    | exact (h (by rw [hpc]; exact trivial)).elim

/-! ### Calls -/

/-- The call `c` is in progress, after the calls that returned `rs`. -/
structure InCall (c : Call) (rs : List Return) (b : BusState) : Prop where
  inv : BusInv b
  call : b.drv.pc.call = some c
  returns : b.drv.returns = rs

/-- The time of the call `c` is over. -/
def Late (c : Call) (b : BusState) : Prop := ∀ T, c.tEnd = some T → T ≤ b.drv.now

/-- The call for `len` bytes has returned. -/
structure Returned (len : ℕ) (rs : List Return) (b : BusState) : Prop where
  pc : b.drv.pc = .idle
  returns : ∃ r, b.drv.returns = rs ++ [r] ∧ r.len = len ∧ r.Bounded

def BusAct.IsRun : BusAct → Prop
  | .run _ => True
  | _ => False

variable {b b' : BusState} {c : Call} {rs : List Return} {t : State}

/-- A step of the driver in the call `c`, which goes on. -/
structure Proceeds (c : Call) (b b' : BusState) : Prop where
  call : b'.drv.pc.call = some c
  returns : b'.drv.returns = b.drv.returns
  now : b'.drv.now = b.drv.now
  rank : Late c b → b'.rank < b.rank

theorem BusState.pc_rank_le : b.drv.pc.rank ≤ b.rank := by
  unfold BusState.rank
  cases hpc : b.drv.pc <;> simp only [Pc.rank] <;> omega

/-- A step that ends the read of the register, or reads none. -/
theorem proceeds_of_cases (ht : b.drv.Returns b'.drv c ∨ b.drv.GoesOn b'.drv c)
    (hrank : ∀ c', b'.drv.pc = .poll c' ∨ b'.drv.pc = .wait c' → b'.rank < b.rank) :
    b.drv.Returns b'.drv c ∨ Proceeds c b b' := by
  refine ht.imp_right fun hon => ⟨hon.call, hon.returns, hon.now, fun _ => ?_⟩
  by_cases hreads : b'.drv.pc.Reads
  · obtain ⟨c', hpc⟩ | ⟨c', hpc⟩ := Pc.reads_iff.mp hreads
    · exact hrank c' (.inl hpc)
    · exact hrank c' (.inr hpc)
  · rw [BusState.rank_of_not_reads hreads]
    exact hon.rank.trans_le BusState.pc_rank_le

theorem proceeds_poll (hcall : b.drv.pc.call = some c) (hpc : b.drv.pc = .poll c)
    {memory : ℕ → UInt8} (hrun : b.run memory = some b') :
    b.drv.Returns b'.drv c ∨ Proceeds c b b' := by
  by_cases hr : ∃ val, b.reading = .done val
  · obtain ⟨val, hr⟩ := hr
    rw [BusState.run_poll_done hpc hr, Option.some.injEq] at hrun
    subst hrun
    refine proceeds_of_cases (State.pollWith_cases hpc val) fun c' hc' => ?_
    rcases hc' with hc' | hc'
    · rcases State.pollWith_cases hpc val with hret | hon
      · exact Pc.noConfusion (hret.pc.symm.trans hc')
      · exact (hon.pc_ne_poll c' hc').elim
    · have hstart := RsrRead.rank_start_le b.drv.chip.rsr
      simp only [BusState.rank, show (b.drv.pollWith val c).pc = .wait c' from hc', hpc,
        State.chip_pollWith, registerRank]
      omega
  · rw [BusState.run_poll_read hpc (not_exists.mp hr), Option.some.injEq] at hrun
    subst hrun
    have hlt := RsrRead.rank_next_lt (not_exists.mp hr) b.drv.chip.rsr
    refine .inr ⟨hcall, rfl, rfl, fun _ => ?_⟩
    simp only [BusState.rank, hpc, registerRank]
    omega

theorem proceeds_wait (hinv : BusInv b) (hcall : b.drv.pc.call = some c)
    (hpc : b.drv.pc = .wait c) {memory : ℕ → UInt8} (hrun : b.run memory = some b') :
    b.drv.Returns b'.drv c ∨ Proceeds c b b' := by
  by_cases hr : ∃ val, b.reading = .done val
  · obtain ⟨val, hr⟩ := hr
    rw [BusState.run_wait_done hpc hr, Option.some.injEq] at hrun
    subst hrun
    rcases State.waitWith_cases hpc val with hcases | ⟨rfl, heq⟩
    · refine proceeds_of_cases hcases fun c' hc' => ?_
      rcases hcases with hret | hon
      · rcases hc' with hc' | hc' <;> exact Pc.noConfusion (hret.pc.symm.trans hc')
      · have hrank := hon.rank
        rcases hc' with hc' | hc' <;>
          rw [show (b.drv.waitWith val c).pc = _ from hc', hpc] at hrank <;>
          simp [Pc.rank] at hrank
    · -- The other call of `getSn_RX_RSR` finds a high byte that is not `0`.
      have hwait := hinv.wait c hpc
      have htorn := (hwait.torn (by rw [(hwait.zero hr).1]; exact one_ne_zero)).1
      have hstart := RsrRead.rank_start_le b.drv.chip.rsr
      have hten : (RsrRead.done 0).rank b.drv.chip.rsr = 10 := by simp [RsrRead.rank, htorn]
      rw [heq]
      refine .inr ⟨hcall, rfl, rfl, fun _ => ?_⟩
      simp only [BusState.rank, hpc, registerRank, hr, hten]
      omega
  · rw [BusState.run_wait_read hpc (not_exists.mp hr), Option.some.injEq] at hrun
    subst hrun
    have hlt := RsrRead.rank_next_lt (not_exists.mp hr) b.drv.chip.rsr
    refine .inr ⟨hcall, rfl, rfl, fun _ => ?_⟩
    simp only [BusState.rank, hpc, registerRank]
    omega

/-- What a step of the driver does to the call in progress. -/
theorem returns_or_proceeds (hinv : BusInv b) (hcall : b.drv.pc.call = some c)
    {memory : ℕ → UInt8} (hrun : b.run memory = some b') :
    b.drv.Returns b'.drv c ∨ Proceeds c b b' := by
  by_cases hreads : b.drv.pc.Reads
  · obtain ⟨c', hpc⟩ | ⟨c', hpc⟩ := Pc.reads_iff.mp hreads
    · obtain rfl : c' = c := by simpa [hpc, Pc.call] using hcall
      exact proceeds_poll hcall hpc hrun
    · obtain rfl : c' = c := by simpa [hpc, Pc.call] using hcall
      exact proceeds_wait hinv hcall hpc hrun
  · rw [BusState.run_of_not_reads hreads] at hrun
    obtain ⟨t, ht, rfl⟩ := Option.map_eq_some_iff.mp hrun
    have hpoll : b.drv.pc ≠ .poll c := fun hpc => hreads (Pc.reads_iff.mpr (.inl ⟨c, hpc⟩))
    have hwait : b.drv.pc ≠ .wait c := fun hpc => hreads (Pc.reads_iff.mpr (.inr ⟨c, hpc⟩))
    rcases State.run_cases ht hcall hpoll hwait (hinv.loops c hcall) with
      hcases | ⟨T, hend, hlt, -, rfl⟩
    · refine proceeds_of_cases hcases fun c' hc' => ?_
      rcases hcases with hret | hon
      · rcases hc' with hc' | hc' <;> exact Pc.noConfusion (hret.pc.symm.trans hc')
      · have hrank := hon.rank.trans_le (Pc.rank_le hreads)
        rcases hc' with hc' | hc' <;> rw [show t.pc = _ from hc'] at hrank <;>
          simp [Pc.rank] at hrank
    · -- The next pass of the loop, in time.
      exact .inr ⟨rfl, rfl, rfl, fun hlate => (hlt.not_ge (hlate T hend)).elim⟩

/-! ### Steps in a call -/

/-- A step of the chip or the clock. -/
theorem inCall_environment (h : InCall c rs b) {act : BusAct} (hact : ¬ act.IsRun)
    (hst : busStep b act = some b') :
    InCall c rs b' ∧ b.drv.now ≤ b'.drv.now ∧ b'.rank ≤ b.rank ∧ b'.drv.pc = b.drv.pc := by
  have hinv := busInv_step h.inv hst
  cases act with
  | chip chip accepted =>
    simp only [busStep, Option.ite_none_right_eq_some, Option.some.injEq] at hst
    obtain ⟨⟨hle, hlt⟩, rfl⟩ := hst
    refine ⟨⟨hinv, h.call, h.returns⟩, le_rfl, ?_, rfl⟩
    have hmono := registerRank_mono (r := b.reading) hle hlt
    unfold BusState.rank
    cases b.drv.pc <;> simp only [le_refl] <;> omega
  | tick us =>
    simp only [busStep, Option.some.injEq] at hst
    subst hst
    exact ⟨⟨hinv, h.call, h.returns⟩, Nat.le_add_right _ _, le_rfl, rfl⟩
  | read len timeout =>
    have hcall := h.call
    cases hpc : b.drv.pc <;> simp [busStep, hpc] at hst
    simp [hpc, Pc.call] at hcall
  | run memory => exact (hact trivial).elim

theorem inCall_run (h : InCall c rs b) {memory : ℕ → UInt8} (hrun : b.run memory = some b') :
    Returned c.len rs b' ∨ (InCall c rs b' ∧ Proceeds c b b') := by
  have hinv := busInv_run h.inv hrun
  rcases returns_or_proceeds h.inv h.call hrun with hret | hon
  · exact .inl ⟨hret.pc, h.returns ▸ hret.returns⟩
  · exact .inr ⟨⟨hinv, hon.call, hon.returns.trans h.returns⟩, hon⟩

theorem inCall_step (h : InCall c rs b) {act : BusAct} (hst : busStep b act = some b') :
    Returned c.len rs b' ∨ InCall c rs b' := by
  by_cases hact : act.IsRun
  · cases act <;> simp only [BusAct.IsRun] at hact
    case run memory => exact (inCall_run h hst).imp_right And.left
  · exact .inr (inCall_environment h hact hst).1

/-- When the time is over, a step of the driver lowers the rank, and no other step raises it. -/
theorem late_step (h : InCall c rs b) (hlate : Late c b) {act : BusAct}
    (hst : busStep b act = some b') :
    Returned c.len rs b' ∨
      ((InCall c rs b' ∧ Late c b') ∧ b'.rank ≤ b.rank ∧ (act.IsRun → b'.rank < b.rank)) := by
  by_cases hact : act.IsRun
  · cases act <;> simp only [BusAct.IsRun] at hact
    case run memory =>
      rcases inCall_run h hst with hret | ⟨hcall, hon⟩
      · exact .inl hret
      · have hlt := hon.rank hlate
        exact .inr ⟨⟨hcall, fun T hT => hon.now ▸ hlate T hT⟩, hlt.le, fun _ => hlt⟩
  · obtain ⟨hcall, hnow, hle, -⟩ := inCall_environment h hact hst
    exact .inr ⟨⟨hcall, fun T hT => (hlate T hT).trans hnow⟩, hle, fun hrun => (hact hrun).elim⟩

/-! ### Fair executions -/

/-- The driver is not delayed forever when it can move, and the clock advances without end. -/
structure FairExecution (e : Machine.Execution busStep) : Prop where
  driver : e.WeaklyFair BusAct.IsRun
  clock : ∀ T, ∃ n, T ≤ (e.state n).drv.now

/-- The driver can move in a call, unless it sleeps. -/
theorem isSome_run (hcall : b.drv.pc.call = some c)
    (hsleep : ∀ wakeAt, b.drv.pc = .sleep c wakeAt → wakeAt ≤ b.drv.now) :
    (b.run fun _ => 0).isSome := by
  by_cases hreads : b.drv.pc.Reads
  · obtain ⟨c', hpc⟩ | ⟨c', hpc⟩ := Pc.reads_iff.mp hreads
    · cases hr : b.reading <;> simp [BusState.run, hpc, hr]
    · cases hr : b.reading <;> simp [BusState.run, hpc, hr]
  · rw [BusState.run_of_not_reads hreads, Option.isSome_map]
    cases hpc : b.drv.pc <;> simp only [State.run, hpc, Option.isSome_some]
    case idle => simp [hpc, Pc.call] at hcall
    case sleep c' wakeAt =>
      obtain rfl : c' = c := by simpa [hpc, Pc.call] using hcall
      rw [if_pos (hsleep wakeAt hpc)]
      rfl

/-- A step of the driver takes no time. -/
theorem now_run (hinv : BusInv b) {memory : ℕ → UInt8} (hrun : b.run memory = some b') :
    b'.drv.now = b.drv.now := by
  obtain ⟨c, hcall⟩ : ∃ c, b.drv.pc.call = some c := by
    cases hpc : b.drv.pc <;> simp [BusState.run, State.run, hpc, Pc.call] at hrun ⊢
  rcases returns_or_proceeds hinv hcall hrun with hret | hon
  · exact hret.now
  · exact hon.now

theorem now_le_of_busStep (hinv : BusInv b) {act : BusAct} (hst : busStep b act = some b') :
    b.drv.now ≤ b'.drv.now := by
  cases act with
  | chip chip accepted =>
    simp only [busStep, Option.ite_none_right_eq_some, Option.some.injEq] at hst
    obtain ⟨-, rfl⟩ := hst
    exact le_rfl
  | tick us =>
    simp only [busStep, Option.some.injEq] at hst
    subst hst
    exact Nat.le_add_right _ _
  | read len timeout =>
    cases hpc : b.drv.pc <;> simp only [busStep, hpc, Option.some.injEq, reduceCtorEq] at hst
    subst hst
    rcases b.drv.udpRead_cases len timeout with heq | ⟨-, heq⟩ | ⟨-, T, heq⟩ <;>
      simp only [heq] <;> exact le_rfl
  | run memory => exact (now_run hinv hst).ge

variable {e : Machine.Execution busStep}

theorem busInv_execution (h : (e.state 0).AtRest) (n : ℕ) : BusInv (e.state n) :=
  Machine.Execution.inv (fun _ _ _ hinv hst => busInv_step hinv hst) h.busInv n.zero_le

/-- The clock passes every time and stays behind it. -/
theorem exists_clock_ge (h : (e.state 0).AtRest) (hfair : FairExecution e) (T n : ℕ) :
    ∃ m, n ≤ m ∧ ∀ k, m ≤ k → T ≤ (e.state k).drv.now :=
  Machine.Execution.exists_le_of_unbounded (f := fun b : BusState => b.drv.now)
    (fun k => now_le_of_busStep (busInv_execution h k) (e.next k)) hfair.clock T n

/-- While a call is busy, the driver takes another step: it can move at once, or when it wakes. -/
theorem exists_isRun (h : (e.state 0).AtRest) (hfair : FairExecution e) {n : ℕ}
    (hbusy : ∀ m, n ≤ m → InCall c rs (e.state m)) : ∃ m, n ≤ m ∧ (e.act m).IsRun := by
  by_contra hnone
  have hnone : ∀ m, n ≤ m → ¬ (e.act m).IsRun := fun m hm hrun => hnone ⟨m, hm, hrun⟩
  have hpc : ∀ m, n ≤ m → (e.state m).drv.pc = (e.state n).drv.pc := by
    intro m hm
    induction m, hm using Nat.le_induction with
    | base => rfl
    | succ m hm ih =>
      exact (inCall_environment (hbusy m hm) (hnone m hm) (e.next m)).2.2.2.trans ih
  obtain ⟨k, hk, hawake⟩ : ∃ k, n ≤ k ∧ ∀ m, k ≤ m → ∀ wakeAt,
      (e.state m).drv.pc = .sleep c wakeAt → wakeAt ≤ (e.state m).drv.now := by
    cases hn : (e.state n).drv.pc
    case sleep c' wakeAt =>
      obtain ⟨k, hk, hnow⟩ := exists_clock_ge h hfair wakeAt n
      refine ⟨k, hk, fun m hm t ht => ?_⟩
      rw [hpc m (hk.trans hm), hn] at ht
      cases ht
      exact hnow m hm
    all_goals
      refine ⟨n, le_rfl, fun m hm t ht => ?_⟩
      rw [hpc m hm, hn] at ht
      cases ht
  obtain ⟨m, hm, hrun⟩ := hfair.driver.exists_act hk fun m hm =>
    ⟨.run fun _ => 0, trivial, isSome_run (hbusy m (hk.trans hm)).call (hawake m hm)⟩
  exact hnone m hm hrun

/-- A call whose time is over returns. -/
theorem exists_returned_of_late (h : (e.state 0).AtRest) (hfair : FairExecution e) {n : ℕ}
    (hcall : InCall c rs (e.state n)) (hlate : Late c (e.state n)) :
    ∃ m, n ≤ m ∧ Returned c.len rs (e.state m) :=
  Machine.Execution.eventually_of_rank (fun b => InCall c rs b ∧ Late c b)
    (fun _ _ _ hb hst => late_step hb.1 hb.2 hst)
    (fun _ hb => exists_isRun h hfair fun m hm => (hb m hm).1) ⟨hcall, hlate⟩

/-- **Every call returns.** Either before its time is over, or soon after it. -/
theorem exists_returned (h : (e.state 0).AtRest) (hfair : FairExecution e) {n : ℕ}
    (hcall : InCall c rs (e.state n)) : ∃ m, n ≤ m ∧ Returned c.len rs (e.state m) := by
  obtain ⟨k, hk, hlate⟩ : ∃ k, n ≤ k ∧ Late c (e.state k) := by
    cases hend : c.tEnd with
    | none => exact ⟨n, le_rfl, fun T hT => by simp [hend] at hT⟩
    | some T =>
      obtain ⟨k, hk, hnow⟩ := exists_clock_ge h hfair T n
      refine ⟨k, hk, fun T' hT' => ?_⟩
      rw [← Option.some.inj (hend.symm.trans hT')]
      exact hnow k le_rfl
  rcases Machine.Execution.goal_or_busy (fun _ _ _ hb hst => inCall_step hb hst) hcall hk with
    ⟨m, hm, -, hret⟩ | hcall
  · exact ⟨m, hm, hret⟩
  · obtain ⟨m, hm, hret⟩ := exists_returned_of_late h hfair hcall hlate
    exact ⟨m, hk.trans hm, hret⟩

/-! ### The transport read -/

/-- In the waiting loop no pass is over that did not leave it, but for one with a torn read of the
register. A call with timeout `0` has called `recvfrom` at most once, and every result is at most as
long as was asked for, and without an error if it is not empty. -/
structure Unblocked (b : BusState) : Prop where
  waiting : ∀ c, b.drv.pc = .wait c → b.passes ≤ b.tears
  passes_le : b.passes ≤ 1 + b.tears
  tears_le : b.tears ≤ 1
  recvfroms_le : b.timeout = 0 → b.recvfroms ≤ 1
  returns : ∀ r ∈ b.drv.returns, r.Bounded

theorem BusInv.unblocked (h : BusInv b) : Unblocked b where
  waiting c hc := (h.wait c hc).passes_le
  passes_le := h.passes_le
  tears_le := h.tears_le
  recvfroms_le ht := (h.single ht).1
  returns := h.returns

/-- After the first step of a call, it is in progress, or it has returned since the transport is
closed. -/
theorem inCall_of_read (hinv : BusInv b) {len : ℕ} {timeout : ℤ}
    (hst : busStep b (.read len timeout) = some b') :
    Returned len b.drv.returns b' ∨
      ∃ c : Call, c.len = len ∧ InCall c b.drv.returns b' := by
  have hinv' := busInv_step hinv hst
  cases hpc : b.drv.pc <;> simp only [busStep, hpc, Option.some.injEq, reduceCtorEq] at hst
  subst hst
  rcases b.drv.udpRead_cases len timeout with heq | ⟨-, heq⟩ | ⟨-, T, heq⟩ <;>
    rw [heq] at hinv' ⊢
  · exact .inl ⟨rfl, _, rfl, rfl, Nat.zero_le _, fun h => (h rfl).elim⟩
  · exact .inr ⟨_, rfl, hinv', rfl, rfl⟩
  · exact .inr ⟨_, rfl, hinv', rfl, rfl⟩

/-- **The transport read does not block.** In every run, whatever earlier calls have left, the
waiting loop ends with its first pass, or with its second after a torn read; and in every fair
execution each call returns. -/
theorem transportRead_returns :
    (∀ b b' as, b.AtRest → Machine.run busStep b as = some b' → Unblocked b') ∧
    ∀ e : Machine.Execution busStep, (e.state 0).AtRest → FairExecution e →
      ∀ n len timeout, e.act n = .read len timeout →
        ∃ m, n < m ∧ Returned len (e.state n).drv.returns (e.state m) := by
  refine ⟨fun b b' as h hrun => (busInv_of_run h hrun).unblocked, ?_⟩
  intro e h hfair n len timeout hread
  have hst := e.next n
  rw [hread] at hst
  rcases inCall_of_read (busInv_execution h n) hst with hret | ⟨c, rfl, hcall⟩
  · exact ⟨n + 1, n.lt_succ_self, hret⟩
  · obtain ⟨m, hm, hret⟩ := exists_returned h hfair hcall
    exact ⟨m, n.lt_succ_self.trans_le hm, hret⟩

def lateDatagram : Datagram := datagram [7, 8, 9] (by decide)

/-- The transport finds the socket empty and sleeps. Then a datagram arrives. -/
def pollThenRead : List BusAct :=
  .read 512 2 :: List.replicate 4 (.run fun _ => 0) ++
    [.chip (({} : Chip).store lateDatagram) [lateDatagram], .tick 1000] ++
    List.replicate 16 (.run fun _ => 0)

theorem pollThenRead_runs : (Machine.run busStep { drv := .start } pollThenRead).isSome := rfl

/-- The state in which the call returns. -/
def datagramRead : BusState :=
  (Machine.run busStep { drv := .start } pollThenRead).get pollThenRead_runs

/-- The time passes. -/
def BusState.later (b : BusState) (n : ℕ) : BusState :=
  { b with drv := { b.drv with now := b.drv.now + n } }

theorem BusState.later_zero (b : BusState) : b.later 0 = b := rfl

theorem busStep_later (b : BusState) (n : ℕ) :
    busStep (b.later n) (.tick 1) = some (b.later (n + 1)) := rfl

/-- The datagram is read, and then the time passes. -/
def readLate : Machine.Execution busStep :=
  .ofRun (Option.some_get pollThenRead_runs).symm (.tick 1) datagramRead.later
    datagramRead.later_zero (busStep_later datagramRead)

/-- From there on the driver is idle. -/
theorem readLate_state (n : ℕ) : readLate.state (n + 23) = datagramRead.later n := rfl

theorem readLate_fairExecution : FairExecution readLate where
  driver n hn := by
    obtain ⟨act, hact, hsome⟩ := hn (n + 23) (Nat.le_add_right n 23)
    rw [readLate_state] at hsome
    cases act <;> simp only [BusAct.IsRun] at hact
    case run memory => exact (Bool.false_ne_true hsome).elim
  clock T := by
    refine ⟨T + 23, ?_⟩
    rw [readLate_state]
    exact Nat.le_add_left T _

theorem transportRead_returns_readLate :
    readLate.act 0 = .read 512 2 ∧ Unblocked datagramRead ∧ datagramRead.recvfroms = 1 ∧
      datagramRead.drv.returns.map Return.bytes = [[7, 8, 9]] ∧
      ∃ m, 0 < m ∧ Returned 512 [] (readLate.state m) := by
  have hrest : BusState.AtRest { drv := .start } := ⟨rfl, by decide, rfl, rfl, rfl, rfl, rfl⟩
  exact ⟨rfl, transportRead_returns.1 _ _ _ hrest (Option.some_get pollThenRead_runs).symm,
    by decide +kernel, by decide +kernel,
    transportRead_returns.2 readLate hrest readLate_fairExecution 0 512 2 rfl⟩

/-- The waiting loop is left on its first pass. -/
def LeavesAtOnce (b : BusState) : Prop := ∀ c, b.drv.pc = .wait c → b.passes = 0

def firstDatagram : Datagram :=
  datagram (List.replicate 232 1) <| by
    rw [List.length_replicate]
    omega

def secondDatagram : Datagram :=
  datagram (List.replicate 8 2) <| by
    rw [List.length_replicate]
    omega

/-- One datagram is in the buffer, of `240` bytes with its header. -/
def tornStart : BusState where
  drv :=
    { State.start with chip := ({} : Chip).store firstDatagram, accepted := [firstDatagram] }

/-- The second datagram makes `240` bytes to `256`, between the reads of the two bytes in the
waiting loop. -/
def tornRead : List BusAct :=
  .read 512 0 :: List.replicate 6 (.run fun _ => 0) ++
    [.chip (tornStart.drv.chip.store secondDatagram) [firstDatagram, secondDatagram],
      .run fun _ => 0, .run fun _ => 0]

set_option maxRecDepth 8000 in
theorem tornRead_not_leavesAtOnce :
    ∃ b, tornStart.AtRest ∧ Machine.run busStep tornStart tornRead = some b ∧
      b.drv.chip.rsr = 256 ∧ ¬ LeavesAtOnce b := by
  refine ⟨_, ⟨rfl, by decide, rfl, rfl, rfl, rfl, rfl⟩, rfl, rfl, fun h => ?_⟩
  exact Nat.one_ne_zero (h ⟨512, none⟩ rfl)

end PicoUros.Net
