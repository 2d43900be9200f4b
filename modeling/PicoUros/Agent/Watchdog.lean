import PicoUros.Lib.Machine
import Mathlib.Algebra.BigOperators.Group.List.Basic
import Mathlib.Algebra.GroupWithZero.Nat
import Mathlib.Data.List.Chain
import Mathlib.Data.List.Infix

/-!
# The supervision of the agent

Core 0 pings the agent once a second in its main loop (`src/main.cpp`, lines 1254–1286). A round has
up to ten pings, and an answer ends it. The board is rebooted behind the third round in a row
without an answer. Callbacks and publications take their time in the same loop, so that a round may
come late.

How long the parts of a pass take, and which pings are answered, are choices of the actions. Times
are in microseconds. The reboot ends the run.

## Main definitions

* `Pass`, `Supervisor`, `step`: the main loop, as far as it supervises the agent.
* `Round`, `failures`: the rounds, and how many of the last ones failed.

## Main results

* `supervised`: **the board is rebooted exactly behind three failed rounds**, which take two seconds
  at least.
* `not_rebooted_of_outage`: an outage of less than two seconds is survived.
* `reboots_of_silence`: when the agent falls silent, the board is rebooted in time.
-/

namespace PicoUros.Agent

/-! ### The main loop -/

/-- A call of `rmw_uros_ping_agent`: whether there was an answer, and the time it took. -/
structure Ping where
  ok : Bool
  took : ℕ

/-- A pass of the main loop: the time in front of the test of `next_ping`, the time until the timer
is set again, the pings as far as they are sent, and the time behind them. -/
structure Pass where
  before : ℕ
  arm : ℕ
  pings : ℕ → Ping
  after : ℕ

/-- The loop over the pings from the number `i` on, with `n` of them to go: the answers, and the
time. -/
def pingLoop (pings : ℕ → Ping) : ℕ → ℕ → List Bool × ℕ
  | 0, _ => ([], 0)
  | n + 1, i =>
    if (pings i).ok then ([true], (pings i).took)
    else
      let r := pingLoop pings n (i + 1)
      (false :: r.1, (pings i).took + r.2)

/-- A round of pings: when it began, and the answers. -/
structure Round where
  start : ℕ
  answers : List Bool

/-- No ping of the round was answered. -/
def Round.Failed (r : Round) : Prop := true ∉ r.answers

instance : DecidablePred Round.Failed := fun _ => inferInstanceAs (Decidable (¬ _))

/-- The clock, the variables of the main loop, and the rounds so far. -/
structure Supervisor where
  now : ℕ
  nextPing : ℕ
  pingFail : UInt8 := 0
  rebooted : Bool := false
  rounds : List Round := []

/-- The body of the test of `next_ping`. -/
def Supervisor.round (s : Supervisor) (p : Pass) : Supervisor :=
  let r := pingLoop p.pings 10 0
  let pingFail := if true ∈ r.1 then 0 else s.pingFail + 1
  { now := s.now + p.arm + r.2
    nextPing := s.now + p.arm + 1000 * 1000
    pingFail
    rebooted := decide (3 ≤ pingFail)
    rounds := s.rounds ++ [⟨s.now, r.1⟩] }

/-- A pass, unless the board has been rebooted. -/
def step (s : Supervisor) (p : Pass) : Option Supervisor :=
  if s.rebooted then none
  else
    let s := { s with now := s.now + p.before }
    let s := if s.nextPing ≤ s.now then s.round p else s
    some { s with now := s.now + p.after }

/-- The state in front of the main loop, at the time `t`. -/
def start (t : ℕ) : Supervisor := { now := t, nextPing := t + 1000 * 1000 }

/-! ### Rounds -/

/-- Ten pings without an answer, or pings up to the first answer. -/
theorem pingLoop_answers (pings : ℕ → Ping) (n i : ℕ) :
    (pingLoop pings n i).1 = List.replicate n false ∨
      ∃ k < n, (pingLoop pings n i).1 = List.replicate k false ++ [true] := by
  induction n generalizing i with
  | zero => exact .inl rfl
  | succ n ih =>
    rw [pingLoop]
    split_ifs
    · exact .inr ⟨0, Nat.succ_pos n, rfl⟩
    · rcases ih (i + 1) with hall | ⟨k, hk, hfst⟩
      · exact .inl (congrArg (false :: ·) hall)
      · exact .inr ⟨k + 1, Nat.succ_lt_succ hk, congrArg (false :: ·) hfst⟩

/-- How many of the last rounds failed. -/
def failures (rs : List Round) : ℕ := (rs.reverse.takeWhile fun r => decide r.Failed).length

theorem failures_concat (rs : List Round) (r : Round) :
    failures (rs ++ [r]) = if r.Failed then failures rs + 1 else 0 := by
  rw [failures, List.reverse_concat, List.takeWhile_cons]
  split_ifs with hdec hr hr
  · rfl
  · exact absurd (of_decide_eq_true hdec) hr
  · exact absurd (decide_eq_true hr) hdec
  · rfl

theorem le_failures_iff {n : ℕ} {rs : List Round} :
    n ≤ failures rs ↔ ∃ last, last <:+ rs ∧ last.length = n ∧ ∀ r ∈ last, r.Failed := by
  induction rs using List.reverseRecOn generalizing n with
  | nil =>
    constructor
    · intro hn
      exact ⟨[], List.suffix_rfl, (Nat.le_zero.mp hn).symm, fun r hr => by cases hr⟩
    · rintro ⟨last, hsuffix, rfl, -⟩
      rw [List.suffix_nil.mp hsuffix]
      exact Nat.zero_le _
  | append_singleton rs r ih =>
    rw [failures_concat]
    constructor
    · intro hn
      cases n with
      | zero => exact ⟨[], List.nil_suffix, rfl, fun r hr => by cases hr⟩
      | succ n =>
        split_ifs at hn with hr
        · obtain ⟨last, hsuffix, hlen, hfailed⟩ := ih.mp (Nat.le_of_succ_le_succ hn)
          refine ⟨last ++ [r], ?_, by rw [List.length_append, hlen]; rfl, ?_⟩
          · obtain ⟨pre, rfl⟩ := hsuffix
            exact ⟨pre, (List.append_assoc _ _ _).symm⟩
          · intro r' hr'
            rcases List.mem_append.mp hr' with hr' | hr'
            exacts [hfailed r' hr', List.mem_singleton.mp hr' ▸ hr]
        · cases hn
    · rintro ⟨last, hsuffix, rfl, hfailed⟩
      rcases List.eq_nil_or_concat' last with rfl | ⟨last, r', rfl⟩
      · exact Nat.zero_le _
      · obtain ⟨pre, hpre⟩ := hsuffix
        rw [← List.append_assoc] at hpre
        obtain ⟨rfl, hr'⟩ := List.append_inj' hpre rfl
        obtain rfl := List.singleton_inj.mp hr'
        rw [if_pos (hfailed r' (by simp)), List.length_append]
        exact Nat.succ_le_succ (ih.mpr ⟨last, ⟨pre, rfl⟩, rfl,
          fun x hx => hfailed x (List.mem_append_left _ hx)⟩)

/-! ### A run -/

variable {s s' : Supervisor} {p : Pass} {t δ : ℕ}

/-- What a pass does in which a ping is due. -/
structure Rounds (s : Supervisor) (p : Pass) (r : Round) (s' : Supervisor) : Prop where
  start : r.start = s.now + p.before
  answers : r.answers = (pingLoop p.pings 10 0).1
  rounds : s'.rounds = s.rounds ++ [r]
  pingFail : s'.pingFail = if r.Failed then s.pingFail + 1 else 0
  rebooted : s'.rebooted = true ↔ 3 ≤ s'.pingFail
  nextPing : s'.nextPing = r.start + p.arm + 1000000
  now : s'.now = r.start + p.arm + (pingLoop p.pings 10 0).2 + p.after

/-- A pass takes its time, and if a ping is due it has a round. -/
theorem step_cases (h : step s p = some s') :
    s.rebooted = false ∧
      (s.now + p.before < s.nextPing ∧ s' = { s with now := s.now + p.before + p.after } ∨
        s.nextPing ≤ s.now + p.before ∧ ∃ r, Rounds s p r s') := by
  unfold step at h
  split_ifs at h with hrebooted
  refine ⟨eq_false_of_ne_true hrebooted, ?_⟩
  simp only at h
  split_ifs at h with hdue
  · obtain rfl := Option.some.inj h
    refine .inr
      ⟨hdue, ⟨s.now + p.before, (pingLoop p.pings 10 0).1⟩, rfl, rfl, rfl, ?_, ?_, rfl, rfl⟩
    · exact (ite_not ..).symm
    · exact decide_eq_true_iff
  · exact .inl ⟨not_le.mp hdue, (Option.some.inj h).symm⟩

/-- What holds of the rounds and of the variables. -/
structure Inv (s : Supervisor) : Prop where
  pingFail : s.pingFail.toNat = failures s.rounds
  rebooted : s.rebooted = true ↔ 3 ≤ failures s.rounds
  answers : ∀ r ∈ s.rounds, r.answers = List.replicate 10 false ∨
    ∃ k < 10, r.answers = List.replicate k false ++ [true]
  spaced : s.rounds.IsChain fun r r' => r.start + 1000000 ≤ r'.start
  next : ∀ r ∈ s.rounds.getLast?, r.start + 1000000 ≤ s.nextPing

theorem inv_start (t : ℕ) : Inv (start t) where
  pingFail := rfl
  rebooted := iff_of_false Bool.false_ne_true (Nat.not_succ_le_zero 2)
  answers := fun r hr => by cases hr
  spaced := .nil
  next := fun r hr => by cases hr

theorem Inv.step (hs : Inv s) (h : step s p = some s') : Inv s' := by
  obtain ⟨hrebooted, ⟨-, rfl⟩ | ⟨hdue, r, hr⟩⟩ := step_cases h
  · exact ⟨hs.pingFail, hs.rebooted, hs.answers, hs.spaced, hs.next⟩
  · have hlt : failures s.rounds < 3 := by
      by_contra hge
      rw [hs.rebooted.mpr (not_lt.mp hge)] at hrebooted
      cases hrebooted
    have hfail : s'.pingFail.toNat = failures s'.rounds := by
      rw [hr.pingFail, hr.rounds, failures_concat]
      split_ifs
      · rw [UInt8.toNat_add, hs.pingFail]
        exact Nat.mod_eq_of_lt (show failures s.rounds + 1 < 256 by omega)
      · rfl
    refine ⟨hfail, ?_, ?_, ?_, ?_⟩
    · rw [hr.rebooted, UInt8.le_iff_toNat_le, hfail]
      rfl
    · rw [hr.rounds]
      intro r' hr'
      rcases List.mem_append.mp hr' with hr' | hr'
      · exact hs.answers r' hr'
      · rw [List.mem_singleton.mp hr', hr.answers]
        exact pingLoop_answers p.pings 10 0
    · rw [hr.rounds]
      refine List.isChain_append.mpr ⟨hs.spaced, .singleton _, fun r₀ hr₀ r₁ hr₁ => ?_⟩
      obtain rfl := Option.some.inj hr₁
      rw [hr.start]
      exact (hs.next r₀ hr₀).trans hdue
    · rw [hr.rounds, List.getLast?_concat]
      rintro r' hr'
      obtain rfl := Option.some.inj hr'
      rw [hr.nextPing]
      omega

theorem inv_run {ps : List Pass} (h : Machine.run step (start t) ps = some s) : Inv s :=
  Machine.inv_of_run (fun _ _ _ hs hst => hs.step hst) (inv_start t) h

/-- How the board is supervised. -/
structure Supervised (s : Supervisor) : Prop where
  /-- It is rebooted exactly when the last three rounds failed. -/
  rebooted_iff : s.rebooted = true ↔
    ∃ r₁ r₂ r₃, [r₁, r₂, r₃] <:+ s.rounds ∧ r₁.Failed ∧ r₂.Failed ∧ r₃.Failed
  /-- A round that fails has ten pings, and another one ends with an answer. -/
  answers : ∀ r ∈ s.rounds, r.answers = List.replicate 10 false ∨
    ∃ k < 10, r.answers = List.replicate k false ++ [true]
  /-- A second passes between the beginnings of two rounds. -/
  spaced : s.rounds.IsChain fun r r' => r.start + 1000000 ≤ r'.start

/-- **The board is rebooted exactly behind three failed rounds**, in every run. -/
theorem supervised {ps : List Pass} (h : Machine.run step (start t) ps = some s) :
    Supervised s := by
  have hs := inv_run h
  refine ⟨?_, hs.answers, hs.spaced⟩
  rw [hs.rebooted, le_failures_iff]
  constructor
  · rintro ⟨last, hsuffix, hlen, hfailed⟩
    obtain ⟨r₁, r₂, r₃, rfl⟩ := List.length_eq_three.mp hlen
    exact ⟨r₁, r₂, r₃, hsuffix, hfailed r₁ (by simp), hfailed r₂ (by simp), hfailed r₃ (by simp)⟩
  · rintro ⟨r₁, r₂, r₃, hsuffix, h₁, h₂, h₃⟩
    refine ⟨_, hsuffix, rfl, fun r hr => ?_⟩
    simp only [List.mem_cons, List.not_mem_nil, or_false] at hr
    rcases hr with rfl | rfl | rfl
    exacts [h₁, h₂, h₃]

/-- An outage of less than two seconds, after the time `a`, is survived. -/
theorem not_rebooted_of_outage {ps : List Pass} {a : ℕ}
    (h : Machine.run step (start t) ps = some s)
    (houtage : ∀ r ∈ s.rounds, r.Failed → a ≤ r.start ∧ r.start < a + 2000000) :
    s.rebooted = false := by
  have hs := inv_run h
  refine eq_false_of_ne_true fun hrebooted => ?_
  obtain ⟨last, hsuffix, hlen, hfailed⟩ := le_failures_iff.mp (hs.rebooted.mp hrebooted)
  obtain ⟨r₁, r₂, r₃, rfl⟩ := List.length_eq_three.mp hlen
  have hspaced := hs.spaced.suffix hsuffix
  rw [List.isChain_cons_cons, List.isChain_cons_cons] at hspaced
  have h₁ := houtage r₁ (hsuffix.subset (by simp)) (hfailed r₁ (by simp))
  have h₃ := houtage r₃ (hsuffix.subset (by simp)) (hfailed r₃ (by simp))
  omega

/-! ### Silence -/

/-- A bound for the time of a pass. -/
def Pass.span (p : Pass) : ℕ := p.before + p.arm + (pingLoop p.pings 10 0).2 + p.after

theorem pingLoop_silent {pings : ℕ → Ping} (h : ∀ i, (pings i).ok = false) (n i : ℕ) :
    (pingLoop pings n i).1 = List.replicate n false := by
  induction n generalizing i with
  | zero => rfl
  | succ n ih =>
    rw [pingLoop, if_neg (by rw [h]; exact Bool.false_ne_true)]
    exact congrArg (false :: ·) (ih (i + 1))

/-- The timer and the clock stay together, when a pass takes at most `δ`. -/
structure Punctual (δ : ℕ) (s : Supervisor) : Prop where
  now_le : s.now ≤ s.nextPing + δ
  nextPing_le : s.nextPing ≤ s.now + 1000000

theorem Punctual.step (hs : Punctual δ s) (hp : p.span ≤ δ) (h : step s p = some s') :
    Punctual δ s' := by
  obtain ⟨hnow, hnext⟩ := hs
  rw [Pass.span] at hp
  obtain ⟨-, ⟨hearly, rfl⟩ | ⟨hdue, r, hr⟩⟩ := step_cases h
  · refine ⟨?_, ?_⟩ <;> simp only <;> omega
  · have hstart := hr.start
    refine ⟨?_, ?_⟩ <;> rw [hr.now, hr.nextPing] <;> omega

/-- Since the time `T` no ping has been answered. -/
structure Silent (δ T : ℕ) (s : Supervisor) : Prop where
  punctual : Punctual δ s
  nextPing_le : s.rebooted = false →
    s.nextPing ≤ T + 1000000 + s.pingFail.toNat * (1000000 + 2 * δ)
  now_le : s.now ≤ T + 3000000 + 6 * δ

theorem Silent.step {T : ℕ} (hinv : Inv s) (hs : Silent δ T s) (hp : p.span ≤ δ)
    (hsilent : ∀ i, (p.pings i).ok = false) (h : step s p = some s') : Silent δ T s' := by
  have hpunctual := hs.punctual.step hp h
  obtain ⟨hnow, -⟩ := hs.punctual
  rw [Pass.span] at hp
  obtain ⟨hrebooted, hcases⟩ := step_cases h
  have hnext := hs.nextPing_le hrebooted
  have hfail : s.pingFail.toNat ≤ 2 := by
    by_contra hge
    rw [hinv.rebooted.mpr (by rw [← hinv.pingFail]; omega)] at hrebooted
    cases hrebooted
  have hmul := Nat.mul_le_mul_right (1000000 + 2 * δ) hfail
  rcases hcases with ⟨hearly, rfl⟩ | ⟨hdue, r, hr⟩
  · exact ⟨hpunctual, fun _ => hnext, by simp only; omega⟩
  · have hstart := hr.start
    have hfailed : r.Failed := by
      rw [Round.Failed, hr.answers, pingLoop_silent hsilent]
      decide
    have hcount : s'.pingFail.toNat = s.pingFail.toNat + 1 := by
      rw [hr.pingFail, if_pos hfailed, UInt8.toNat_add]
      exact Nat.mod_eq_of_lt (by simp only [UInt8.toNat_ofNat]; omega)
    refine ⟨hpunctual, fun _ => ?_, ?_⟩
    · rw [hr.nextPing, hcount, Nat.add_mul]
      omega
    · rw [hr.now]
      omega

theorem punctual_run {ps : List Pass} (hs : Punctual δ s) (hps : ∀ p ∈ ps, p.span ≤ δ)
    (h : Machine.run step s ps = some s') : Punctual δ s' := by
  induction ps generalizing s with
  | nil => exact Option.some.inj h ▸ hs
  | cons p ps ih =>
    obtain ⟨u, hu, h⟩ := Option.bind_eq_some_iff.mp h
    exact ih (hs.step (hps p List.mem_cons_self) hu)
      (fun q hq => hps q (List.mem_cons_of_mem p hq)) h

theorem silent_run {ps : List Pass} {T : ℕ} (hinv : Inv s) (hs : Silent δ T s)
    (hps : ∀ p ∈ ps, p.span ≤ δ ∧ ∀ i, (p.pings i).ok = false)
    (h : Machine.run step s ps = some s') : Silent δ T s' := by
  induction ps generalizing s with
  | nil => exact Option.some.inj h ▸ hs
  | cons p ps ih =>
    obtain ⟨u, hu, h⟩ := Option.bind_eq_some_iff.mp h
    obtain ⟨hspan, hsilent⟩ := hps p List.mem_cons_self
    exact ih (hinv.step hu) (hs.step hinv hspan hsilent hu)
      (fun q hq => hps q (List.mem_cons_of_mem p hq)) h

/-- The passes are gone through, and take their time, unless the board is rebooted. -/
theorem run_or_rebooted (s : Supervisor) (ps : List Pass) :
    (∃ s', Machine.run step s ps = some s' ∧
      s.now + (ps.map fun p => p.before + p.after).sum ≤ s'.now) ∨
      ∃ qs s', qs <+: ps ∧ Machine.run step s qs = some s' ∧ s'.rebooted = true := by
  induction ps generalizing s with
  | nil => exact .inl ⟨s, rfl, le_rfl⟩
  | cons p ps ih =>
    cases hrebooted : s.rebooted with
    | true => exact .inr ⟨[], s, List.nil_prefix, rfl, hrebooted⟩
    | false =>
      obtain ⟨u, hu⟩ : ∃ u, step s p = some u := by
        rw [step, hrebooted]
        exact ⟨_, rfl⟩
      rcases ih u with ⟨s', hs', hnow⟩ | ⟨qs, s', hqs, hs', hreboot⟩
      · refine .inl ⟨s', by rw [Machine.run_cons, hu, Option.bind_some, hs'], ?_⟩
        rw [List.map_cons, List.sum_cons]
        obtain ⟨-, ⟨-, rfl⟩ | ⟨-, r, hr⟩⟩ := step_cases hu
        · simp only at hnow
          omega
        · have hstart := hr.start
          rw [hr.now] at hnow
          omega
      · exact .inr ⟨p :: qs, s', List.cons_prefix_cons.mpr ⟨rfl, hqs⟩,
          by rw [Machine.run_cons, hu, Option.bind_some, hs'], hreboot⟩

/-- **When the agent falls silent, the board is rebooted** within three seconds and six passes: from
every state that is reached, if the passes take at most `δ`. -/
theorem reboots_of_silence {as bs : List Pass} (h : Machine.run step (start t) as = some s)
    (hspan : ∀ p ∈ as ++ bs, p.span ≤ δ) (hsilent : ∀ p ∈ bs, ∀ i, (p.pings i).ok = false)
    (hlong : 3000000 + 6 * δ < (bs.map fun p => p.before + p.after).sum) :
    ∃ qs s', qs <+: bs ∧ Machine.run step s qs = some s' ∧ s'.rebooted = true ∧
      s'.now ≤ s.now + 3000000 + 6 * δ := by
  have hinv := inv_run h
  have hstart : Punctual δ (start t) := by
    refine ⟨?_, le_rfl⟩
    simp only [start]
    omega
  have hpunctual := punctual_run hstart (fun p hp => hspan p (List.mem_append_left bs hp)) h
  have hs : Silent δ s.now s := by
    refine ⟨hpunctual, fun _ => hpunctual.nextPing_le.trans (Nat.le_add_right _ _), by omega⟩
  have hbs : ∀ p ∈ bs, p.span ≤ δ ∧ ∀ i, (p.pings i).ok = false :=
    fun p hp => ⟨hspan p (List.mem_append_right as hp), hsilent p hp⟩
  rcases run_or_rebooted s bs with ⟨s', hs', hnow⟩ | ⟨qs, s', hqs, hs', hrebooted⟩
  · have hend := (silent_run hinv hs hbs hs').now_le
    omega
  · exact ⟨qs, s', hqs, hs', hrebooted,
      (silent_run hinv hs (fun p hp => hbs p (hqs.subset hp)) hs').now_le⟩

/-- A pass of half a second without an answer. -/
def silentPass : Pass := ⟨480000, 0, fun _ => ⟨false, 2000⟩, 0⟩

theorem supervised_silent : ∃ s,
    Machine.run step (start 0) (List.replicate 9 silentPass) = some s ∧ s.rebooted = true ∧
      Supervised s :=
  ⟨_, rfl, by decide +kernel,
    supervised (show Machine.run step (start 0) (List.replicate 9 silentPass) = some _ from rfl)⟩

theorem reboots_of_silence_twenty : ∃ qs s', qs <+: List.replicate 20 silentPass ∧
    Machine.run step (start 0) qs = some s' ∧ s'.rebooted = true ∧
      s'.now ≤ 0 + 3000000 + 6 * 500000 := by
  have hmem {p : Pass} (hp : p ∈ List.replicate 20 silentPass) : p = silentPass :=
    List.eq_of_mem_replicate hp
  have hstart : Machine.run step (start 0) [] = some (start 0) := rfl
  refine reboots_of_silence hstart (fun p hp => ?_) (fun p hp i => ?_) ?_
  · rw [hmem hp]
    decide +kernel
  · rw [hmem hp]
    rfl
  · decide +kernel

end PicoUros.Agent
