import PicoUros.Gnss.Positions
import PicoUros.Gnss.Publish
import PicoUros.Lib.Rotation
import Mathlib.Data.Rat.Sqrt
import Mathlib.Tactic.FieldSimp

/-!
# The heading of a line

`parse_headingga_line` rejects a line without a positive baseline, without a status or a solution,
or with one of two words that say that there is no solution. From any other line it stores a
quaternion, and the squares of two standard deviations as variances (`src/main.cpp`, lines 436–531).

The standard deviations are variables that start with `0`, and nothing tests them. The variances
that stand for unknown ones are set at the entry and overwritten.

The yaw angle is measured counterclockwise from east, so it is `90` degrees less the heading. A
positive rotation about the `y` axis, which points to the left, lowers the forward axis. The pitch
of the receiver is passed on as it is.

## Main definitions

* `HeadingAccepted`, `lineHeading`: when a line is accepted, and the heading stored then.
* `NotCertain`: both variances are squares of positive numbers of the line, or stand for unknown.
* `PointsAlongBaseline`: the forward axis is rotated to the direction of the baseline.

## Main results

* `heading_eq_some_iff`: what `parse_headingga_line` stores.
* `notCertain_iff`, `shortLine_certain`: the variances, and a line that is cut short.
* `pointsAlong_iff`, `inclined_not_pointsAlong`: the direction, and an inclined baseline.
-/

namespace PicoUros.Gnss

/-! ### What is stored -/

section Stored

variable {D F : Type} [Floating D] [Floating F] (c : Libc D F)

/-- The value that is read from a token, unless it is empty. -/
def readValue (t : Token) : Option F :=
  if stripCr t.text = [] then none else some (c.toFloat (c.atof (stripCr t.text)))

/-- The text of token number `n` behind the semicolon. -/
def headingText (line : List UInt8) (n : ℕ) : Option (List UInt8) :=
  (headingBuf line).bind fun buf => (headingToken buf n).map fun t => stripCr t.text

/-- The value of token number `n` behind the semicolon. -/
def headingValue (line : List UInt8) (n : ℕ) : Option F :=
  (headingBuf line).bind fun buf => (headingToken buf n).bind (readValue c)

/-- The line passes the tests of `parse_headingga_line`. -/
structure HeadingAccepted (line : List UInt8) : Prop where
  test : isHeading line
  baseline : leb ((headingValue c line 3).getD (lit 0)) (lit 0) = false
  status : ∃ s, headingText line 1 = some s ∧ ¬ strncmpEq s (bytes "INSUFFICIENT_OBS") 16
  sol : ∃ s, headingText line 2 = some s ∧ ¬ strcmpEq s (bytes "NONE")

/-- The variables of `parse_headingga_line` after its loop, for a line. -/
def headingLocals (line : List UInt8) : HeadingLocals F where
  status := headingText line 1
  sol := headingText line 2
  baseline := (headingValue c line 3).getD (lit 0)
  heading := (headingValue c line 4).getD (lit 0)
  pitch := (headingValue c line 5).getD (lit 0)
  hstd := (headingValue c line 7).getD (lit 0)
  pstd := (headingValue c line 8).getD (lit 0)

/-- The heading that is stored when the tests are passed. -/
def HeadingLocals.stored (v : HeadingLocals F) : Heading F :=
  let q := quatFromRpy c (lit 0) (deg2rad v.pitch) (deg2rad (lit 90 - v.heading))
  { qx := q.1
    qy := q.2.1
    qz := q.2.2.1
    qw := q.2.2.2
    yawVar := deg2rad v.hstd * deg2rad v.hstd
    pitchVar := deg2rad v.pstd * deg2rad v.pstd
    yawDeg := lit 90 - v.heading
    pitchDeg := v.pitch
    headingStatus := (v.status.getD []).take 19
    headingSol := (v.sol.getD []).take 19 }

/-- The heading that is stored for an accepted line. -/
def lineHeading (line : List UInt8) : Heading F := (headingLocals c line).stored c

omit [Floating D] [Floating F] in
theorem readFloat_eq_getD (t : Token) (old : F) :
    readFloat c t old = (readValue c t).getD old := by
  rw [readFloat, readValue]
  split_ifs <;> rfl

omit [Floating D] [Floating F] in
theorem elim_readFloat (t : Option Token) (old : F) :
    (t.elim old fun t => readFloat c t old) = (t.bind (readValue c)).getD old := by
  cases t with
  | none => rfl
  | some t => exact readFloat_eq_getD c t old

omit [Floating D] in
/-- The loop reads one token for each variable. -/
theorem headingOf_eq_headingLocals {line buf : List UInt8} (h : headingBuf line = some buf) :
    headingOf c (headingToken buf) = headingLocals c line := by
  have htext (n : ℕ) : ((headingToken buf n).elim none fun t => some (stripCr t.text)) =
      headingText line n := by
    rw [headingText, h, Option.bind_some]
    cases headingToken buf n <;> rfl
  have hvalue (n : ℕ) : ((headingToken buf n).elim (lit 0) fun t => readFloat c t (lit 0)) =
      (headingValue c line n).getD (lit 0) := by
    rw [headingValue, h, elim_readFloat, Option.bind_some]
  simp only [headingOf, headingLocals, htext, hvalue]

omit [Floating D] in
/-- The tests that the variables of `parse_headingga_line` have to pass. -/
theorem heading?_eq_some_iff (v : HeadingLocals F) (r : Heading F) :
    v.heading? c = some r ↔ leb v.baseline (lit 0) = false ∧
      (∃ s, v.status = some s ∧ ¬ strncmpEq s (bytes "INSUFFICIENT_OBS") 16) ∧
      (∃ s, v.sol = some s ∧ ¬ strcmpEq s (bytes "NONE")) ∧ r = v.stored c := by
  obtain ⟨status, sol, baseline, heading, pitch, hstd, pstd⟩ := v
  unfold HeadingLocals.heading?
  cases leb baseline (lit 0) with
  | true => exact iff_of_false (fun h => nomatch h) fun h => nomatch h.1
  | false =>
    cases status with
    | none => exact iff_of_false (fun h => nomatch h) fun ⟨_, ⟨_, hs, _⟩, _⟩ => nomatch hs
    | some status =>
      cases sol with
      | none => exact iff_of_false (fun h => nomatch h) fun ⟨_, _, ⟨_, hs, _⟩, _⟩ => nomatch hs
      | some sol =>
        simp only [Bool.false_eq_true, if_false, Option.some.injEq, exists_eq_left', true_and]
        by_cases hs : strncmpEq status (bytes "INSUFFICIENT_OBS") 16
        · simp only [hs, if_true, not_true_eq_false, false_and, reduceCtorEq]
        · simp only [hs, Bool.false_eq_true, if_false, not_false_eq_true, true_and]
          by_cases hn : strcmpEq sol (bytes "NONE")
          · simp only [hn, if_true, not_true_eq_false, false_and, reduceCtorEq]
          · simp only [hn, Bool.false_eq_true, if_false, not_false_eq_true, true_and,
              Option.some.injEq]
            exact eq_comm

theorem headingText_of_none {line : List UInt8} (h : headingBuf line = none) (n : ℕ) :
    headingText line n = none := by
  rw [headingText, h]
  rfl

omit [Floating D] in
/-- **What `parse_headingga_line` stores.** -/
theorem heading_eq_some_iff {line : List UInt8} {msg : GnssT D F} {r : Heading F} :
    (parseHeadinggaLine c line msg).2.heading = some r ↔
      HeadingAccepted c line ∧ r = lineHeading c line := by
  rw [heading_parseHeadinggaLine, Option.ite_none_right_eq_some]
  cases hbuf : headingBuf line with
  | none =>
    refine iff_of_false (fun h => nomatch h.2) fun h => ?_
    obtain ⟨s, hs, -⟩ := h.1.status
    rw [headingText_of_none hbuf] at hs
    cases hs
  | some buf =>
    rw [Option.bind_some, headingScan_eq]
    change isHeading line = true ∧ (headingOf c (headingToken buf)).heading? c = some r ↔ _
    rw [headingOf_eq_headingLocals c hbuf, heading?_eq_some_iff]
    constructor
    · rintro ⟨htest, hbase, hstatus, hsol, hr⟩
      exact ⟨⟨htest, hbase, hstatus, hsol⟩, hr⟩
    · rintro ⟨h, hr⟩
      exact ⟨h.test, h.baseline, h.status, h.sol, hr⟩

omit [Floating F] in
/-- The covariances of a heading that is published are the variances of a valid record. -/
theorem headings_publishGnss (now : Option ℤ) (e : LatestQueue.Tagged (GnssT D F))
    (p : Publish.Publisher D) : ∃ msgs,
      (Publish.publishGnss c now e p).headings = p.headings ++ msgs ∧
      ∀ m ∈ msgs, ∃ r, e.val.heading = some r ∧ m.val.orientationCovariance =
        Publish.diagonal (lit 99999) (c.toDouble r.pitchVar) (c.toDouble r.yawVar) := by
  cases now with
  | none => exact ⟨[], (List.append_nil _).symm, fun m hm => nomatch hm⟩
  | some ns =>
    have hfix (p : Publish.Publisher D) :
        (Publish.publishFix (Publish.stampFromRosTime ns) e p).headings = p.headings := rfl
    cases hvalid : e.val.validHeading with
    | false =>
      refine ⟨[], ?_, fun m hm => nomatch hm⟩
      simp only [Publish.publishGnss, hvalid, Bool.false_eq_true, if_false, List.append_nil]
      split_ifs <;> simp only [hfix]
    | true =>
      refine ⟨[⟨e.tag, Publish.headingMsgOf c (Publish.stampFromRosTime ns) e.val⟩], ?_, ?_⟩
      · simp only [Publish.publishGnss, hvalid, if_true, Publish.publishHeading_headings]
        split_ifs <;> simp only [hfix]
      · intro m hm
        rw [List.mem_singleton.mp hm, GnssT.heading, if_pos hvalid]
        exact ⟨_, rfl, rfl⟩

end Stored

/-! ### The variances -/

section Variance

/-- A variance is the square of a positive standard deviation, read from token number `n` of the
line, or stands for an unknown one. -/
def VarianceOf (c : Libc ℚ ℚ) (line : List UInt8) (n : ℕ) (var : ℚ) : Prop :=
  (∃ σ, headingValue c line n = some σ ∧ 0 < σ ∧ var = deg2rad σ * deg2rad σ) ∨ var = 99999

/-- The heading of a line does not claim perfect certainty. -/
structure NotCertain (c : Libc ℚ ℚ) (line : List UInt8) (r : Heading ℚ) : Prop where
  yaw : VarianceOf c line 7 r.yawVar
  pitch : VarianceOf c line 8 r.pitchVar

variable {c : Libc ℚ ℚ} {line : List UInt8} {n : ℕ}

theorem deg2rad_mul_self_ne (σ : ℚ) : deg2rad σ * deg2rad σ ≠ 99999 := by
  intro h
  have hsquare : ¬ IsSquare (99999 : ℚ) := by decide +kernel
  exact hsquare ⟨_, h.symm⟩

theorem deg2rad_pos {σ : ℚ} (h : 0 < σ) : 0 < deg2rad σ := by
  have hlit : (0 : ℚ) < lit 0.017453292519943295 := by decide +kernel
  exact mul_pos h hlit

theorem VarianceOf.ne_zero {var : ℚ} (h : VarianceOf c line n var) : var ≠ 0 := by
  rcases h with ⟨σ, -, hσ, rfl⟩ | rfl
  · exact (mul_pos (deg2rad_pos hσ) (deg2rad_pos hσ)).ne'
  · decide

/-- A variance that is stored is the square of what was read, or of `0`. -/
theorem varianceOf_iff :
    VarianceOf c line n (deg2rad ((headingValue c line n).getD 0) *
      deg2rad ((headingValue c line n).getD 0)) ↔ ∃ σ, headingValue c line n = some σ ∧ 0 < σ := by
  constructor
  · rintro (⟨σ, hσ, hpos, -⟩ | h)
    · exact ⟨σ, hσ, hpos⟩
    · exact absurd h (deg2rad_mul_self_ne _)
  · rintro ⟨σ, hσ, hpos⟩
    exact .inl ⟨σ, hσ, hpos, by rw [hσ]; rfl⟩

variable (atof : List UInt8 → ℚ) (atoi : List UInt8 → ℤ) (cosf sinf : ℚ → ℚ)

/-- **When a heading does not claim perfect certainty.** No heading is stored with a variance that
is not that of a positive standard deviation exactly if, on an accepted line, both standard
deviations are read and positive. Then no heading is published with a variance of zero. -/
theorem notCertain_iff (line : List UInt8) (msg : GnssT ℚ ℚ) :
    let c := Libc.exactWith atof atoi cosf sinf
    let msg' := (parseHeadinggaLine c line msg).2
    ((∀ r, msg'.heading = some r → NotCertain c line r) ↔
      (HeadingAccepted c line → ∀ n ∈ [7, 8], ∃ σ, headingValue c line n = some σ ∧ 0 < σ)) ∧
    ((∀ r, msg'.heading = some r → NotCertain c line r) → ∀ now tag p,
      ∃ msgs, (Publish.publishGnss c now ⟨tag, msg'⟩ p).headings = p.headings ++ msgs ∧
        ∀ m ∈ msgs, m.val.orientationCovariance 4 ≠ 0 ∧ m.val.orientationCovariance 8 ≠ 0) := by
  intro c msg'
  refine ⟨⟨fun h haccepted => ?_, fun h r hr => ?_⟩, fun h now tag p => ?_⟩
  · obtain ⟨hyaw, hpitch⟩ := h _ ((heading_eq_some_iff c).mpr ⟨haccepted, rfl⟩)
    simp only [List.forall_mem_cons, List.not_mem_nil, false_implies, implies_true, and_true]
    exact ⟨varianceOf_iff.mp hyaw, varianceOf_iff.mp hpitch⟩
  · obtain ⟨haccepted, rfl⟩ := (heading_eq_some_iff c).mp hr
    exact ⟨varianceOf_iff.mpr (h haccepted 7 (by simp)),
      varianceOf_iff.mpr (h haccepted 8 (by simp))⟩
  · obtain ⟨msgs, hmsgs, hcov⟩ := headings_publishGnss c now ⟨tag, msg'⟩ p
    refine ⟨msgs, hmsgs, fun m hm => ?_⟩
    obtain ⟨r, hr, heq⟩ := hcov m hm
    obtain ⟨hyaw, hpitch⟩ := h r hr
    rw [heq]
    exact ⟨hpitch.ne_zero, hyaw.ne_zero⟩

/-- A line that ends behind the pitch. -/
def shortLine : List UInt8 := bytes "#UNIHEADINGA,90;SOL_COMPUTED,NARROW_INT,1,90,0"

/-- The heading of such a line is accepted with variances of zero. -/
theorem shortLine_certain :
    ∃ r, (parseHeadinggaLine .exact shortLine .zero).2.heading = some r ∧ r.yawVar = 0 ∧
      r.pitchVar = 0 ∧ ¬ NotCertain .exact shortLine r := by
  have h : ((parseHeadinggaLine .exact shortLine .zero).2.heading.map fun r =>
      (r.yawVar, r.pitchVar)) = some (0, 0) := by
    decide +kernel
  obtain ⟨r, hr, hvars⟩ := Option.map_eq_some_iff.mp h
  obtain ⟨hyaw, hpitch⟩ := Prod.mk.inj hvars
  exact ⟨r, hr, hyaw, hpitch, fun hn => hn.yaw.ne_zero hyaw⟩

end Variance

/-! ### The direction -/

section Direction

open Rotation

/-- Exact arithmetic in an ordered field. -/
@[reducible] def Floating.ofField (K : Type) [Field K] [LinearOrder K] : Floating K where
  leb x y := decide (x ≤ y)
  lit q := q
  beq x y := decide (x = y)

attribute [local instance] Floating.ofField

variable {D K : Type} [Floating D] [Field K] [LinearOrder K] {c : Libc D K}

/-- The angle of `x` radians, by the cosine and the sine of its half. -/
def Libc.angle (hc : ∀ x, c.cosf x ^ 2 + c.sinf x ^ 2 = 1) (x : K) : HalfAngle K :=
  ⟨c.cosf (x * lit 0.5), c.sinf (x * lit 0.5), hc _⟩

/-- The quaternion of a heading. -/
def Heading.quat (r : Heading K) : Quaternion K := ⟨r.qw, r.qx, r.qy, r.qz⟩

variable (hc : ∀ x, c.cosf x ^ 2 + c.sinf x ^ 2 = 1)

/-- The direction of a baseline in the frame east, north, up. The heading is measured clockwise from
north, so that its sine is the cosine of `90` degrees less the heading, and conversely. A positive
pitch points above the horizon. -/
def baselineDirection (heading pitch : K) : Quaternion K :=
  let yaw := Libc.angle hc (deg2rad (lit 90 - heading))
  let elevation := Libc.angle hc (deg2rad pitch)
  let sinHeading := yaw.cos
  let cosHeading := yaw.sin
  vec (elevation.cos * sinHeading) (elevation.cos * cosHeading) elevation.sin

/-- The quaternion of a heading is a rotation, and it takes the forward axis of the body to the
direction of the baseline. -/
structure PointsAlongBaseline (heading pitch : K) (r : Heading K) : Prop where
  norm : Quaternion.normSq r.quat = 1
  forward : rotate r.quat (vec 1 0 0) = baselineDirection hc heading pitch

omit [Floating D] in
/-- `quat_from_rpy` composes the rotations about the three axes. -/
theorem quatFromRpy_eq (roll pitch yaw : K) :
    let q := quatFromRpy c roll pitch yaw
    (⟨q.2.2.2, q.1, q.2.1, q.2.2.1⟩ : Quaternion K) =
      aboutZ (Libc.angle hc yaw) *
        (aboutY (Libc.angle hc pitch) * aboutX (Libc.angle hc roll)) := by
  intro q
  ext
  · simp [q, Libc.angle, quatFromRpy]
    ring
  · simp [q, Libc.angle, quatFromRpy]
    ring
  · simp [q, Libc.angle, quatFromRpy]
    ring
  · simp [q, Libc.angle, quatFromRpy]
    ring

omit [Floating D] in
/-- The quaternion that is stored for the variables of `parse_headingga_line`. -/
theorem quat_stored (v : HeadingLocals K) :
    (v.stored c).quat = aboutZ (Libc.angle hc (deg2rad (lit 90 - v.heading))) *
      (aboutY (Libc.angle hc (deg2rad v.pitch)) * aboutX (Libc.angle hc (lit 0))) :=
  quatFromRpy_eq hc _ _ _

include hc in
omit [Floating D] in
theorem normSq_quat_stored (v : HeadingLocals K) : Quaternion.normSq (v.stored c).quat = 1 := by
  rw [quat_stored hc, map_mul, map_mul, normSq_aboutX, normSq_aboutY, normSq_aboutZ, mul_one,
    mul_one]

omit [Floating D] in
/-- The rotation about the `y` axis takes the forward axis below the horizon, when the pitch is
positive. -/
theorem rotate_quat_stored (v : HeadingLocals K) :
    let yaw := Libc.angle hc (deg2rad (lit 90 - v.heading))
    let pitch := Libc.angle hc (deg2rad v.pitch)
    rotate (v.stored c).quat (vec 1 0 0) =
      vec (pitch.cos * yaw.cos) (pitch.cos * yaw.sin) (-pitch.sin) := by
  intro yaw pitch
  rw [quat_stored hc, rotate_mul, rotate_mul, rotate_aboutX, rotate_aboutY, rotate_aboutZ, vec_inj]
  refine ⟨?_, ?_, ?_⟩ <;> ring

variable [IsStrictOrderedRing K]

omit [Floating D] in
/-- **When the quaternion points along the baseline.** The heading that is stored for a line is a
rotation, and it points along the measured baseline exactly if the sine of the pitch is zero. -/
theorem pointsAlong_iff {line : List UInt8} {msg : GnssT D K} {r : Heading K}
    (h : (parseHeadinggaLine c line msg).2.heading = some r) :
    PointsAlongBaseline hc (headingLocals c line).heading (headingLocals c line).pitch r ↔
      (Libc.angle hc (deg2rad (headingLocals c line).pitch)).sin = 0 := by
  obtain ⟨-, rfl⟩ := (heading_eq_some_iff c).mp h
  have hforward := rotate_quat_stored hc (headingLocals c line)
  constructor
  · intro hp
    have heq := hforward.symm.trans hp.forward
    rw [baselineDirection, vec_inj] at heq
    exact self_eq_neg.mp heq.2.2.symm
  · intro hsin
    refine ⟨normSq_quat_stored hc _, hforward.trans ?_⟩
    rw [baselineDirection, hsin, neg_zero]

/-- Exact arithmetic in which every angle but `0` has the half with cosine `4 / 5` and sine
`3 / 5`. -/
def steep : Libc ℚ ℚ :=
  .exactWith Numeral.atof Numeral.atoi (fun x => if x = 0 then 1 else 4 / 5)
    fun x => if x = 0 then 0 else 3 / 5

theorem steep_onCircle (x : ℚ) : steep.cosf x ^ 2 + steep.sinf x ^ 2 = 1 := by
  by_cases hx : x = 0
  · simp [steep, Libc.exactWith, hx]
  · simp [steep, Libc.exactWith, hx]
    norm_num

/-- A heading line with a baseline that points to the north-east and is level. -/
def level : List UInt8 := bytes "#UNIHEADINGA,90;SOL_COMPUTED,NARROW_INT,1,30,0,0,1,1"

theorem pointsAlong_iff_level :
    ∃ r, (parseHeadinggaLine steep level .zero).2.heading = some r ∧
      rotate r.quat (vec 1 0 0) = vec (7 / 25) (24 / 25) 0 ∧
      PointsAlongBaseline steep_onCircle 30 0 r := by
  obtain ⟨r, hr⟩ : ∃ r, (parseHeadinggaLine steep level .zero).2.heading = some r :=
    Option.isSome_iff_exists.mp (by decide +kernel)
  have hheading : (headingLocals steep level).heading = 30 := by decide +kernel
  have hpitch : (headingLocals steep level).pitch = 0 := by decide +kernel
  have hiff := pointsAlong_iff steep_onCircle hr
  rw [hheading, hpitch] at hiff
  have hpoints := hiff.mpr (by decide +kernel)
  refine ⟨r, hr, hpoints.forward.trans ?_, hpoints⟩
  rw [baselineDirection, vec_inj]
  decide +kernel

/-- A heading line with a pitch whose half has about the cosine `4 / 5`. -/
def inclined : List UInt8 :=
  bytes "#UNIHEADINGA,90;SOL_COMPUTED,NARROW_INT,1,90,73.74,0,1,1"

/-- The baseline points above the horizon, and the forward axis is rotated below it. -/
theorem inclined_not_pointsAlong :
    ∃ r, (parseHeadinggaLine steep inclined .zero).2.heading = some r ∧
      rotate r.quat (vec 1 0 0) = vec (7 / 25) 0 (-24 / 25) ∧
      ¬ PointsAlongBaseline steep_onCircle 90 73.74 r := by
  obtain ⟨r, hr⟩ : ∃ r, (parseHeadinggaLine steep inclined .zero).2.heading = some r :=
    Option.isSome_iff_exists.mp (by decide +kernel)
  have hheading : (headingLocals steep inclined).heading = 90 := by decide +kernel
  have hpitch : (headingLocals steep inclined).pitch = 73.74 := by decide +kernel
  have hforward := rotate_quat_stored steep_onCircle (headingLocals steep inclined)
  obtain ⟨-, rfl⟩ := (heading_eq_some_iff steep).mp hr
  rw [hheading, hpitch] at hforward
  refine ⟨_, hr, hforward.trans ?_, fun hp => ?_⟩
  · rw [vec_inj]
    decide +kernel
  · have heq := hforward.symm.trans hp.forward
    rw [baselineDirection, vec_inj] at heq
    exact absurd heq.2.2 (by decide +kernel)

end Direction

end PicoUros.Gnss
