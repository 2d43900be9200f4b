import PicoUros.Gnss.Window
import PicoUros.Inter.LatestQueue
import Mathlib.Data.Fin.VecNotation
import Mathlib.Data.Fintype.Basic
import Mathlib.Tactic.FinCases

/-!
# From the byte stream to the GNSS messages

Core 1 pushes its record on `q_gnss`, and the main loop of core 0 takes the latest record and
publishes a `NavSatFix` and a heading message from it (`src/main.cpp`, lines 1169–1252). The two
messages are global variables that every publication overwrites in part. A record is only used when
the clock is synchronized with the agent, and each message only if the part of the record that it
shows is valid.

`step` interleaves the passes of the loop of core 1 and the queue calls of both cores. A publication
is one step.

## Main definitions

* `NavSatFix`, `HeadingMsg`: the fields of the two messages that the program writes.
* `publishGnss`: the block that publishes a record.
* `navSatFixOf`, `headingMsgOf`: the messages that show a record.
* `System`, `Act`, `step`: the two cores.

## Main results

* `publishFix_fixes`, `publishHeading_headings`: nothing of an earlier message remains.
* `Inv`, `inv_step`: the invariant.
* `provenance`: what the records and the messages have to do with the bytes popped.
-/

namespace PicoUros.Gnss.Publish

open LatestQueue (Shown Tagged tagAll)

variable {D F : Type} [Floating D] [Floating F] (c : Libc D F)

/-! ### Messages -/

/-- `builtin_interfaces__msg__Time`. -/
structure Time where
  sec : Int32
  nanosec : UInt32
  deriving DecidableEq

/-- The two constants `COVARIANCE_TYPE_…` that the program uses. -/
inductive CovarianceType where
  | unknown
  | diagonalKnown

structure NavSatFix (D : Type) where
  stamp : Time
  latitude : D
  longitude : D
  altitude : D
  status : Int8
  service : UInt16
  positionCovariance : Fin 9 → D
  positionCovarianceType : CovarianceType

/-- The fields of the heading message that are written after the start. -/
structure HeadingMsg (D : Type) where
  stamp : Time
  x : D
  y : D
  z : D
  w : D
  orientationCovariance : Fin 9 → D

/-- `stamp_from_ros_time`, when the clock is synchronized and shows `ns`. -/
def stampFromRosTime (ns : ℤ) : Time :=
  ⟨.ofInt (ns.tdiv 1000000000), .ofInt (ns.tmod 1000000000)⟩

/-- `navsat_status`. -/
def navsatStatus (fixq : UInt8) : Int8 :=
  if fixq = 1 ∨ fixq = 2 then 0
  else if fixq = 4 ∨ fixq = 5 then 2
  else -1

/-- `heading_quality`. -/
def headingQuality (sol : List UInt8) : UInt8 :=
  if strcmpEq sol (bytes "NARROW_INT") then 4
  else if strcmpEq sol (bytes "NARROW_FLOAT") then 3
  else if strcmpEq sol (bytes "FLOAT") || strcmpEq sol (bytes "L1_FLOAT") then 2
  else if strcmpEq sol (bytes "SINGLE") then 1
  else 0

/-- The global message variables, and what was published so far. A publication is tagged with the
number of the push that its record came from. -/
structure Publisher (D : Type) where
  gnssMsg : NavSatFix D
  qualityMsg : UInt8
  headingMsg : HeadingMsg D
  headingQualityMsg : UInt8
  fixes : List (Tagged (NavSatFix D)) := []
  qualities : List UInt8 := []
  headings : List (Tagged (HeadingMsg D)) := []
  headingQualities : List UInt8 := []

/-- Nine assignments to the elements of a covariance. -/
def setCovariance (a : Fin 9 → D) (x₀ x₁ x₂ x₃ x₄ x₅ x₆ x₇ x₈ : D) : Fin 9 → D :=
  let a := Function.update a 0 x₀
  let a := Function.update a 1 x₁
  let a := Function.update a 2 x₂
  let a := Function.update a 3 x₃
  let a := Function.update a 4 x₄
  let a := Function.update a 5 x₅
  let a := Function.update a 6 x₆
  let a := Function.update a 7 x₇
  Function.update a 8 x₈

/-- The publication of the `NavSatFix`. -/
def publishFix (stamp : Time) (e : Tagged (GnssT D F)) (p : Publisher D) : Publisher D :=
  let r := e.val
  let msg := { p.gnssMsg with
    stamp := stamp
    latitude := r.latDeg
    longitude := r.lonDeg
    altitude := r.altM
    status := navsatStatus r.fixQuality
    service := 1 ||| 2 ||| 4 ||| 8 }
  let msg :=
    if r.validCov then
      { msg with
        positionCovariance := setCovariance msg.positionCovariance
          r.covEast (lit 0) (lit 0) (lit 0) r.covNorth (lit 0) (lit 0) (lit 0) r.covUp
        positionCovarianceType := .diagonalKnown }
    else
      { msg with
        positionCovariance := setCovariance msg.positionCovariance
          (lit 0) (lit 0) (lit 0) (lit 0) (lit 0) (lit 0) (lit 0) (lit 0) (lit 0)
        positionCovarianceType := .unknown }
  { p with
    gnssMsg := msg
    qualityMsg := r.fixQuality
    fixes := p.fixes ++ [⟨e.tag, msg⟩]
    qualities := p.qualities ++ [r.fixQuality] }

/-- The publication of the heading. -/
def publishHeading (stamp : Time) (e : Tagged (GnssT D F)) (p : Publisher D) : Publisher D :=
  let r := e.val
  let msg := { p.headingMsg with
    stamp := stamp
    x := c.toDouble r.qx
    y := c.toDouble r.qy
    z := c.toDouble r.qz
    w := c.toDouble r.qw
    orientationCovariance := setCovariance p.headingMsg.orientationCovariance
      (lit 99999) (lit 0) (lit 0) (lit 0) (c.toDouble r.pitchVar) (lit 0) (lit 0) (lit 0)
      (c.toDouble r.yawVar) }
  { p with
    headingMsg := msg
    headingQualityMsg := headingQuality r.headingSol
    headings := p.headings ++ [⟨e.tag, msg⟩]
    headingQualities := p.headingQualities ++ [headingQuality r.headingSol] }

/-- The block that runs on a record taken from `q_gnss`. The clock `now` is `none` when it is not
synchronized. -/
def publishGnss (now : Option ℤ) (e : Tagged (GnssT D F)) (p : Publisher D) : Publisher D :=
  match now with
  | none => p
  | some ns =>
    let stamp := stampFromRosTime ns
    let p := if e.val.validCoords then publishFix stamp e p else p
    if e.val.validHeading then publishHeading c stamp e p else p

/-! ### The image of a record -/

/-- A matrix with the given diagonal. -/
def diagonal (x y z : D) : Fin 9 → D :=
  ![x, lit 0, lit 0, lit 0, y, lit 0, lit 0, lit 0, z]

/-- The `NavSatFix` that shows a record. -/
def navSatFixOf (stamp : Time) (r : GnssT D F) : NavSatFix D where
  stamp := stamp
  latitude := r.latDeg
  longitude := r.lonDeg
  altitude := r.altM
  status := navsatStatus r.fixQuality
  service := 15
  positionCovariance :=
    if r.validCov then diagonal r.covEast r.covNorth r.covUp else diagonal (lit 0) (lit 0) (lit 0)
  positionCovarianceType := if r.validCov then .diagonalKnown else .unknown

/-- The heading message that shows a record. -/
def headingMsgOf (stamp : Time) (r : GnssT D F) : HeadingMsg D where
  stamp := stamp
  x := c.toDouble r.qx
  y := c.toDouble r.qy
  z := c.toDouble r.qz
  w := c.toDouble r.qw
  orientationCovariance := diagonal (lit 99999) (c.toDouble r.pitchVar) (c.toDouble r.yawVar)

omit [Floating D] in
theorem setCovariance_eq (a : Fin 9 → D) (x₀ x₁ x₂ x₃ x₄ x₅ x₆ x₇ x₈ : D) :
    setCovariance a x₀ x₁ x₂ x₃ x₄ x₅ x₆ x₇ x₈ = ![x₀, x₁, x₂, x₃, x₄, x₅, x₆, x₇, x₈] := by
  funext i
  fin_cases i <;> rfl

omit [Floating F] in
/-- A published `NavSatFix` shows its record and nothing else. -/
theorem publishFix_fixes (stamp : Time) (e : Tagged (GnssT D F)) (p : Publisher D) :
    (publishFix stamp e p).fixes = p.fixes ++ [⟨e.tag, navSatFixOf stamp e.val⟩] := by
  have hservice : (1 ||| 2 ||| 4 ||| 8 : UInt16) = 15 := rfl
  cases h : e.val.validCov <;>
    simp [publishFix, navSatFixOf, setCovariance_eq, diagonal, h, hservice]

omit [Floating F] in
/-- A published heading shows its record and nothing else. -/
theorem publishHeading_headings (stamp : Time) (e : Tagged (GnssT D F)) (p : Publisher D) :
    (publishHeading c stamp e p).headings =
      p.headings ++ [⟨e.tag, headingMsgOf c stamp e.val⟩] := by
  simp [publishHeading, headingMsgOf, setCovariance_eq, diagonal]

/-! ### The two cores -/

structure System (D F : Type) where
  /-- The bytes that core 1 has popped from the ring. -/
  popped : List UInt8
  core1 : State D F
  /-- `q_gnss`. -/
  channel : LatestQueue.State 8 (GnssT D F)
  publisher : Publisher D

/-- The start, with any contents of the two messages. -/
def System.init (gnssMsg : NavSatFix D) (headingMsg : HeadingMsg D) : System D F where
  popped := []
  core1 := .init
  channel := {}
  publisher := { gnssMsg, qualityMsg := 0, headingMsg, headingQualityMsg := 0 }

/-- `pop b` is a pass of the loop of core 1, up to the call of `queue_push_latest` if it makes one,
and `push` the next queue call inside it. `get` enters `queue_try_get_latest` on core 0, `remove` is
its next queue call, and `publish` runs the block on the record that it returned. -/
inductive Act where
  | pop (b : UInt8)
  | push
  | get
  | remove
  | publish (now : Option ℤ)

def step (s : System D F) : Act → Option (System D F)
  | .pop b =>
    match s.channel.producer with
    | .idle =>
      let (core1, o) := byteStep c s.core1 b
      let s := { s with core1 := core1, popped := s.popped ++ [b] }
      match o.pushed with
      | none => some s
      | some r => (LatestQueue.step s.channel (.push r)).map fun ch => { s with channel := ch }
    | _ => none
  | .push => (LatestQueue.produce s.channel).map fun ch => { s with channel := ch }
  | .get => (LatestQueue.step s.channel .get).map fun ch => { s with channel := ch }
  | .remove => (LatestQueue.consume s.channel).map fun ch => { s with channel := ch }
  | .publish now =>
    match s.channel.consumer with
    | .got e =>
      (LatestQueue.step s.channel .use).map fun ch =>
        { s with channel := ch, publisher := publishGnss c now e s.publisher }
    | _ => none

/-! ### The invariant -/

/-- A message shows a record that is valid, under the number of its push. -/
def Shows {M : Type} (valid : GnssT D F → Bool) (image : Time → GnssT D F → M)
    (e : Tagged (GnssT D F)) (m : Tagged M) : Prop :=
  m.tag = e.tag ∧ valid e.val ∧ ∃ stamp, m.val = image stamp e.val

/-- What holds in every reachable state. -/
structure Inv (s : System D F) : Prop where
  channel : LatestQueue.Inv s.channel
  core1 : s.core1 = feed c .init s.popped
  pushed : s.channel.pushed = (outs c .init s.popped).filterMap Out.pushed
  fixes : Shown (Shows GnssT.validCoords navSatFixOf) s.channel s.publisher.fixes
  headings : Shown (Shows GnssT.validHeading (headingMsgOf c)) s.channel s.publisher.headings

theorem inv_init (gnssMsg : NavSatFix D) (headingMsg : HeadingMsg D) :
    Inv c (System.init gnssMsg headingMsg : System D F) where
  channel := LatestQueue.inv_init
  core1 := rfl
  pushed := rfl
  fixes := ⟨[], List.Sublist.refl _, .nil⟩
  headings := ⟨[], List.Sublist.refl _, .nil⟩

theorem inv_pop {s t : System D F} {b : UInt8} (h : Inv c s) (ht : step c s (.pop b) = some t) :
    Inv c t := by
  have hcore : (byteStep c s.core1 b).1 = feed c .init (s.popped ++ [b]) := by
    rw [feed_concat, h.core1]
  have houts : (outs c .init (s.popped ++ [b])).filterMap Out.pushed =
      s.channel.pushed ++ (byteStep c s.core1 b).2.pushed.toList := by
    rw [outs_concat, List.filterMap_append, ← h.pushed, h.core1]
    cases hp : (byteStep c (feed c .init s.popped) b).2.pushed <;> simp [hp]
  simp only [step] at ht
  split at ht
  · split at ht
    · next hnone =>
      cases ht
      refine ⟨h.channel, hcore, ?_, h.fixes, h.headings⟩
      rw [houts, hnone]
      exact (List.append_nil _).symm
    · next r hr =>
      obtain ⟨ch, hch, rfl⟩ := Option.map_eq_some_iff.mp ht
      have hinv := LatestQueue.inv_step (by decide) _ _ _ h.channel hch
      have hfixes := h.fixes.step hch
      have hheadings := h.headings.step hch
      simp only [LatestQueue.step] at hch
      split at hch <;> cases hch
      exact ⟨hinv, hcore, by rw [houts, hr]; rfl, hfixes, hheadings⟩
  · cases ht

omit [Floating F] in
/-- The block publishes what the validity flags allow. -/
theorem publishGnss_shows (now : Option ℤ) {e : Tagged (GnssT D F)} {p : Publisher D}
    {ch ch' : LatestQueue.State 8 (GnssT D F)} (he : ch.consumer = .got e)
    (hch : LatestQueue.step ch .use = some ch')
    (hfixes : Shown (Shows GnssT.validCoords navSatFixOf) ch p.fixes)
    (hheadings : Shown (Shows GnssT.validHeading (headingMsgOf c)) ch p.headings) :
    Shown (Shows GnssT.validCoords navSatFixOf) ch' (publishGnss c now e p).fixes ∧
      Shown (Shows GnssT.validHeading (headingMsgOf c)) ch' (publishGnss c now e p).headings := by
  cases now with
  | none => exact ⟨hfixes.step hch, hheadings.step hch⟩
  | some ns =>
    have hfix : (publishFix (stampFromRosTime ns) e p).headings = p.headings := rfl
    have hheading (p : Publisher D) :
        (publishHeading c (stampFromRosTime ns) e p).fixes = p.fixes := rfl
    cases hcoords : e.val.validCoords <;> cases hvalid : e.val.validHeading <;>
      simp only [publishGnss, hcoords, hvalid, Bool.false_eq_true, ↓reduceIte, hfix, hheading,
        publishFix_fixes, publishHeading_headings]
    · exact ⟨hfixes.step hch, hheadings.step hch⟩
    · exact ⟨hfixes.step hch, hheadings.use he ⟨rfl, hvalid, _, rfl⟩ hch⟩
    · exact ⟨hfixes.use he ⟨rfl, hcoords, _, rfl⟩ hch, hheadings.step hch⟩
    · exact ⟨hfixes.use he ⟨rfl, hcoords, _, rfl⟩ hch, hheadings.use he ⟨rfl, hvalid, _, rfl⟩ hch⟩

theorem inv_publish {s t : System D F} {now : Option ℤ} (h : Inv c s)
    (ht : step c s (.publish now) = some t) : Inv c t := by
  simp only [step] at ht
  split at ht
  · next e he =>
    obtain ⟨ch, hch, rfl⟩ := Option.map_eq_some_iff.mp ht
    have hinv := LatestQueue.inv_step (by decide) _ _ _ h.channel hch
    obtain ⟨hfixes, hheadings⟩ := publishGnss_shows c now he hch h.fixes h.headings
    have hpushed : ch.pushed = s.channel.pushed := by
      simp only [LatestQueue.step, he, Option.some.injEq] at hch
      rw [← hch]
    exact ⟨hinv, h.core1, hpushed.trans h.pushed, hfixes, hheadings⟩
  · cases ht

theorem inv_step (s : System D F) (a : Act) (t : System D F) (h : Inv c s)
    (ht : step c s a = some t) : Inv c t := by
  cases a with
  | pop b => exact inv_pop c h ht
  | push =>
    obtain ⟨ch, hch, rfl⟩ := Option.map_eq_some_iff.mp ht
    obtain ⟨hpushed, -, -⟩ := LatestQueue.produce_frame hch
    exact ⟨LatestQueue.inv_produce (by decide) h.channel hch, h.core1, hpushed.trans h.pushed,
      h.fixes.step (a := .produce) hch, h.headings.step (a := .produce) hch⟩
  | get =>
    obtain ⟨ch, hch, rfl⟩ := Option.map_eq_some_iff.mp ht
    have hinv := LatestQueue.inv_step (by decide) _ _ _ h.channel hch
    have hfixes := h.fixes.step hch
    have hheadings := h.headings.step hch
    simp only [LatestQueue.step] at hch
    split at hch <;> cases hch
    exact ⟨hinv, h.core1, h.pushed, hfixes, hheadings⟩
  | remove =>
    obtain ⟨ch, hch, rfl⟩ := Option.map_eq_some_iff.mp ht
    obtain ⟨hpushed, -, -⟩ := LatestQueue.consume_frame hch
    exact ⟨LatestQueue.inv_consume h.channel hch, h.core1, hpushed.trans h.pushed,
      h.fixes.step (a := .consume) hch, h.headings.step (a := .consume) hch⟩
  | publish now => exact inv_publish c h ht

/-- Every state of every interleaving satisfies the invariant. -/
theorem inv_run {gnssMsg : NavSatFix D} {headingMsg : HeadingMsg D} {as : List Act}
    {s : System D F} (h : Machine.run (step c) (.init gnssMsg headingMsg) as = some s) : Inv c s :=
  Machine.inv_of_run (inv_step c) (inv_init c gnssMsg headingMsg) h

/-! ### Provenance -/

/-- What the records and messages of a state have to do with the bytes that core 1 has popped. -/
structure Provenance (s : System D F) : Prop where
  /-- Every pass of the loop pushes a record exactly when the window has all three kinds of lines,
  and the record shows the last line of each kind. -/
  passes : ∀ bs b rest, s.popped = bs ++ b :: rest → FreshPass c bs b
  /-- The records pushed are those of the passes. -/
  pushed : s.channel.pushed = (outs c .init s.popped).filterMap Out.pushed
  /-- The messages published show records pushed, later messages those of later pushes. -/
  fixes : ∃ records, records.Sublist (tagAll s.channel.pushed) ∧
    List.Forall₂ (Shows GnssT.validCoords navSatFixOf) records s.publisher.fixes
  headings : ∃ records, records.Sublist (tagAll s.channel.pushed) ∧
    List.Forall₂ (Shows GnssT.validHeading (headingMsgOf c)) records s.publisher.headings

/-- **Provenance and freshness**, for every byte sequence and every interleaving of the cores. -/
theorem provenance {gnssMsg : NavSatFix D} {headingMsg : HeadingMsg D} {as : List Act}
    {s : System D F} (h : Machine.run (step c) (.init gnssMsg headingMsg) as = some s) :
    Provenance c s := by
  have hinv := inv_run c h
  exact
    { passes := fun bs b _ _ => freshPass c bs b
      pushed := hinv.pushed
      fixes := hinv.fixes.pushed hinv.channel
      headings := hinv.headings.pushed hinv.channel }

/-- A GGA, a GST and a heading line are popped, and the record is pushed, taken and published. -/
def oneEpoch : List Act :=
  (bytes "$GNGGA,1,4000,N,300,W,1,8,1,100,M,50,M\n" ++ bytes "$GNGST,1,1,1,1,0,1,2,3\n" ++
    bytes "#UNIHEADINGA,90;SOL_COMPUTED,NARROW_INT,1,90,0,0,1,1\n").map .pop ++
  [.push, .get, .remove, .remove, .publish (some 1500000000)]

/-- Message variables to start with. -/
def noFix : NavSatFix ℚ := ⟨⟨0, 0⟩, 0, 0, 0, 0, 0, fun _ => 0, .unknown⟩

def noHeading : HeadingMsg ℚ := ⟨⟨0, 0⟩, 0, 0, 0, 0, fun _ => 0⟩

/-- Exact arithmetic in which every angle has the cosine `4 / 5` and the sine `3 / 5`. -/
def tilted : Libc ℚ ℚ := .exactWith Numeral.atof Numeral.atoi (fun _ => 4 / 5) fun _ => 3 / 5

theorem oneEpoch_runs :
    (Machine.run (step tilted) (.init noFix noHeading) oneEpoch).isSome := by
  decide +kernel

theorem provenance_oneEpoch :
    ∃ s, Machine.run (step tilted) (.init noFix noHeading) oneEpoch = some s ∧
      (s.publisher.fixes.map fun m => (m.tag, m.val.stamp)) = [(0, ⟨1, 500000000⟩)] ∧
      (s.publisher.fixes.map fun m => [m.val.latitude, m.val.longitude, m.val.altitude]) =
        [[40, -3, 100]] ∧
      (s.publisher.headings.map fun m => (m.tag, m.val.stamp)) = [(0, ⟨1, 500000000⟩)] ∧
      (s.publisher.headings.map fun m => [m.val.x, m.val.y, m.val.z, m.val.w]) =
        [[12 / 125, 84 / 125, 12 / 125, 91 / 125]] ∧
      Provenance tilted s := by
  have hs := (Option.some_get oneEpoch_runs).symm
  exact ⟨_, hs, by decide +kernel, by decide +kernel, by decide +kernel, by decide +kernel,
    provenance tilted hs⟩

end PicoUros.Gnss.Publish
