import PicoUros.Gnss.Positions
import PicoUros.Gnss.Publish
import PicoUros.Lib.Numerals
import Mathlib.Data.Rat.Floor
import Mathlib.Tactic.IntervalCases
import Mathlib.Tactic.Linarith
import Mathlib.Tactic.Positivity

/-!
# The coordinates of a GGA line

`parse_gga_line` stores a latitude, a longitude, an altitude and a fix quality, or leaves all four
as they are (`src/main.cpp`, lines 366–420). The gate tests the fix quality as an `int`, and the
record has one byte for it.

A position in a GGA line has degrees and minutes in one numeral, the last two digits in front of the
point being whole minutes.

## Main definitions

* `GgaAccepted`, `lineCoords`: when a line is accepted, and the coordinates stored then.
* `GateKept`: the fix quality is stored as it was tested, or nothing is stored.
* `Position`, `Position.Encodes`, `Position.format`: a position, the lines that show it, and one of
  these lines.

## Main results

* `parseGgaLine_of_accepted`, `parseGgaLine_of_not_accepted`: what `parse_gga_line` stores.
* `gateKept_iff`, `wideQuality_not_gateKept`: the gate, and a fix quality that does not fit.
* `decoding_inverts_encoding`: the coordinates of a line are those of the position that it shows.
-/

namespace PicoUros.Gnss

/-! ### What is stored -/

section Stored

variable {D F : Type} [Floating D] [Floating F] (c : Libc D F)

/-- The text of token number `n` of a GGA line. -/
def ggaText (line : List UInt8) (n : ℕ) : Option (List UInt8) := (ggaToken line n).map Token.text

/-- The variables of `parse_gga_line` after its loop, for a line. -/
def ggaLocals (line : List UInt8) : GgaLocals D where
  lat := (ggaText line 3).elim (lit 0) c.atof
  ns := (ggaText line 4).elim 0 fun s => s.headD 0
  lon := (ggaText line 5).elim (lit 0) c.atof
  ew := (ggaText line 6).elim 0 fun s => s.headD 0
  fix := (ggaText line 7).elim 0 c.atoi
  alt := (ggaText line 10).elim (lit 0) c.atof

/-- The line passes the tests of `parse_gga_line`. -/
structure GgaAccepted (line : List UInt8) : Prop where
  test : isGga line
  fix : 0 < (ggaLocals c line).fix
  lat : ((ggaLocals c line).lat == lit 0) = false
  lon : ((ggaLocals c line).lon == lit 0) = false
  ns : (ggaLocals c line).ns ≠ 0
  ew : (ggaLocals c line).ew ≠ 0

/-- The coordinates that are stored when the tests are passed. -/
def GgaLocals.stored (v : GgaLocals D) : Coords D where
  latDeg := if v.ns = 0x53 then -nmeaDeg c v.lat else nmeaDeg c v.lat
  lonDeg := if v.ew = 0x57 then -nmeaDeg c v.lon else nmeaDeg c v.lon
  altM := v.alt
  fixQuality := .ofInt v.fix

/-- The coordinates that are stored for an accepted line. -/
def lineCoords (line : List UInt8) : Coords D := (ggaLocals c line).stored c

omit [Floating F] in
/-- The loop reads one token for each variable. -/
theorem ggaScan_eq_ggaLocals (line : List UInt8) :
    ggaScan c (ggaBuf line) = ggaLocals c line := by
  have hmap {β : Type} (n : ℕ) (x : β) (f : List UInt8 → β) :
      ((tokenAt comma 1 (ggaBuf line) n).elim x fun t => f t.text) = (ggaText line n).elim x f := by
    rw [ggaText, ggaToken]
    cases tokenAt comma 1 (ggaBuf line) n <;> rfl
  rw [ggaScan_eq]
  simp only [ggaOf, ggaLocals]
  rw [hmap 3, hmap 5, hmap 10, hmap 4 0 fun s => s.headD 0, hmap 6 0 fun s => s.headD 0, hmap 7]

omit [Floating F] in
/-- The tests that the variables of `parse_gga_line` have to pass. -/
theorem coords_ggaLocals (line : List UInt8) (h : isGga line) :
    ((ggaLocals c line).coords c = some (lineCoords c line) ∧ GgaAccepted c line) ∨
      ((ggaLocals c line).coords c = none ∧ ¬ GgaAccepted c line) := by
  unfold GgaLocals.coords
  split
  · next hreject =>
    refine .inr ⟨rfl, fun ha => ?_⟩
    rcases hreject with hfix | hlat | hlon | hns | hew
    · exact absurd ha.fix (not_lt.mpr hfix)
    · exact Bool.noConfusion (hlat.symm.trans ha.lat)
    · exact Bool.noConfusion (hlon.symm.trans ha.lon)
    · exact ha.ns hns
    · exact ha.ew hew
  · next hreject =>
    simp only [not_or, not_le, Bool.not_eq_true] at hreject
    obtain ⟨hfix, hlat, hlon, hns, hew⟩ := hreject
    exact .inl ⟨rfl, h, hfix, hlat, hlon, hns, hew⟩

variable (line : List UInt8) (msg : GnssT D F)

omit [Floating F] in
theorem parseGgaLine_of_accepted (h : GgaAccepted c line) :
    parseGgaLine c line msg = (true, { msg with
      latDeg := (lineCoords c line).latDeg, lonDeg := (lineCoords c line).lonDeg,
      altM := (lineCoords c line).altM, fixQuality := (lineCoords c line).fixQuality,
      validCoords := true }) := by
  rcases coords_ggaLocals c line h.test with ⟨hcoords, -⟩ | ⟨-, hnot⟩
  · simp only [parseGgaLine, h.test, Bool.not_true, Bool.false_eq_true, if_false,
      ggaScan_eq_ggaLocals, hcoords]
  · exact absurd h hnot

omit [Floating F] in
theorem parseGgaLine_of_not_accepted (h : ¬ GgaAccepted c line) :
    (parseGgaLine c line msg).2 = { msg with validCoords := false } := by
  cases htest : isGga line with
  | false => simp only [parseGgaLine, htest, Bool.not_false, if_true]
  | true =>
    rcases coords_ggaLocals c line htest with ⟨-, ha⟩ | ⟨hcoords, -⟩
    · exact absurd ha h
    · simp only [parseGgaLine, htest, Bool.not_true, Bool.false_eq_true, if_false,
        ggaScan_eq_ggaLocals, hcoords]

omit [Floating F] in
/-- The coordinates that are published are those of a valid record. -/
theorem fixes_publishGnss (now : Option ℤ) (e : LatestQueue.Tagged (GnssT D F))
    (p : Publish.Publisher D) : ∃ fixes qualities,
      (Publish.publishGnss c now e p).fixes = p.fixes ++ fixes ∧
      (Publish.publishGnss c now e p).qualities = p.qualities ++ qualities ∧
      (∀ m ∈ fixes, e.val.validCoords ∧
        m.val.status = Publish.navsatStatus e.val.fixQuality) ∧
      ∀ q ∈ qualities, e.val.validCoords ∧ q = e.val.fixQuality := by
  have hheading (stamp : Publish.Time) (p : Publish.Publisher D) :
      (Publish.publishHeading c stamp e p).fixes = p.fixes ∧
        (Publish.publishHeading c stamp e p).qualities = p.qualities := ⟨rfl, rfl⟩
  cases now with
  | none =>
    exact ⟨[], [], (List.append_nil _).symm, (List.append_nil _).symm,
      fun _ hm => absurd hm List.not_mem_nil, fun _ hq => absurd hq List.not_mem_nil⟩
  | some ns =>
    cases hvalid : e.val.validCoords with
    | false =>
      refine ⟨[], [], ?_, ?_, fun _ hm => absurd hm List.not_mem_nil,
        fun _ hq => absurd hq List.not_mem_nil⟩ <;>
        simp only [Publish.publishGnss, hvalid, Bool.false_eq_true, if_false, List.append_nil] <;>
        split_ifs <;> simp only [hheading]
    | true =>
      refine ⟨[⟨e.tag, Publish.navSatFixOf (Publish.stampFromRosTime ns) e.val⟩],
        [e.val.fixQuality], ?_, ?_, fun m hm => ?_, fun q hq => ⟨rfl, List.mem_singleton.mp hq⟩⟩
      · simp only [Publish.publishGnss, hvalid, if_true]
        split_ifs <;> simp only [hheading, Publish.publishFix_fixes]
      · simp only [Publish.publishGnss, hvalid, if_true]
        split_ifs <;> rfl
      · rw [List.mem_singleton.mp hm]
        exact ⟨rfl, rfl⟩

end Stored

/-! ### The gate -/

section Gate

variable {D F : Type} [Floating D] [Floating F] (c : Libc D F)

/-- The fix quality is stored as the positive number that is in the line, or the line is rejected
and nothing is stored. -/
def GateKept (line : List UInt8) (msg : GnssT D F) : Prop :=
  let msg' := (parseGgaLine c line msg).2
  (msg'.validCoords = true ∧ ∃ s, ggaText line 7 = some s ∧ 0 < c.atoi s ∧
      (msg'.fixQuality.toNat : ℤ) = c.atoi s) ∨
    (msg'.validCoords = false ∧ msg'.latDeg = msg.latDeg ∧ msg'.lonDeg = msg.lonDeg ∧
      msg'.altM = msg.altM ∧ msg'.fixQuality = msg.fixQuality)

/-- What `gnss/fix` and `gnss/fix_quality` show for a line comes from the number that is in the
line, which is not `0`. -/
def QualityPublished (line : List UInt8) (msg : GnssT D F) : Prop :=
  ∀ now tag p, ∃ fixes qualities,
    (Publish.publishGnss c now ⟨tag, (parseGgaLine c line msg).2⟩ p).fixes = p.fixes ++ fixes ∧
    (Publish.publishGnss c now ⟨tag, (parseGgaLine c line msg).2⟩ p).qualities =
      p.qualities ++ qualities ∧
    (∀ q ∈ qualities, q ≠ 0 ∧ ∃ s, ggaText line 7 = some s ∧ (q.toNat : ℤ) = c.atoi s) ∧
    ∀ m ∈ fixes, ∃ q s, ggaText line 7 = some s ∧ (UInt8.toNat q : ℤ) = c.atoi s ∧
      m.val.status = Publish.navsatStatus q

theorem toNat_ofInt_eq_iff {n : ℤ} (h : 0 < n) : ((UInt8.ofInt n).toNat : ℤ) = n ↔ n ≤ 255 := by
  rw [UInt8.ofInt, UInt8.toNat_ofNat']
  omega

omit [Floating F] in
/-- On an accepted line there is a fix quality, and it is positive. -/
theorem GgaAccepted.exists_fix {line : List UInt8} (h : GgaAccepted c line) :
    ∃ s, ggaText line 7 = some s ∧ 0 < c.atoi s ∧
      (lineCoords c line).fixQuality = .ofInt (c.atoi s) := by
  have hfix := h.fix
  cases hs : ggaText line 7 with
  | none => simp [ggaLocals, hs] at hfix
  | some s =>
    refine ⟨s, rfl, ?_, ?_⟩
    · simpa [ggaLocals, hs] using hfix
    · simp [lineCoords, GgaLocals.stored, ggaLocals, hs]

omit [Floating F] in
theorem GateKept.published {line : List UInt8} {msg : GnssT D F} (h : GateKept c line msg) :
    QualityPublished c line msg := by
  intro now tag p
  obtain ⟨fixes, qualities, hfixes, hqualities, hf, hq⟩ :=
    fixes_publishGnss c now ⟨tag, (parseGgaLine c line msg).2⟩ p
  refine ⟨fixes, qualities, hfixes, hqualities, fun q hmem => ?_, fun m hmem => ?_⟩
  · obtain ⟨hvalid, rfl⟩ := hq q hmem
    rcases h with ⟨-, s, hs, hpos, heq⟩ | ⟨hnot, -⟩
    · refine ⟨fun hzero => ?_, s, hs, heq⟩
      rw [hzero] at heq
      exact absurd heq hpos.ne
    · exact Bool.noConfusion (hnot.symm.trans hvalid)
  · obtain ⟨hvalid, hstatus⟩ := hf m hmem
    rcases h with ⟨-, s, hs, -, heq⟩ | ⟨hnot, -⟩
    · exact ⟨_, s, hs, heq, hstatus⟩
    · exact Bool.noConfusion (hnot.symm.trans hvalid)

omit [Floating F] in
/-- **When the gate is kept.** Either the fix quality of the line is stored, or nothing is stored,
exactly if on an accepted line the fix quality fits into a byte. Then it is never published as
`0`. -/
theorem gateKept_iff (line : List UInt8) (msg : GnssT D F) :
    (GateKept c line msg ↔
      (GgaAccepted c line → ∀ s, ggaText line 7 = some s → c.atoi s ≤ 255)) ∧
    (GateKept c line msg → QualityPublished c line msg) := by
  refine ⟨?_, GateKept.published c⟩
  by_cases ha : GgaAccepted c line
  · obtain ⟨s, hs, hpos, hquality⟩ := ha.exists_fix
    have hrecord := congrArg Prod.snd (parseGgaLine_of_accepted c line msg ha)
    have hiff := toNat_ofInt_eq_iff hpos
    rw [← hquality] at hiff
    simp only [GateKept, hrecord, hs, Option.some.injEq, exists_eq_left', forall_eq',
      Bool.true_eq_false, false_and, or_false, true_and, hiff, and_iff_right hpos]
    exact ⟨fun hle _ => hle, fun hle => hle ha⟩
  · refine iff_of_true (.inr ?_) fun h => absurd h ha
    rw [parseGgaLine_of_not_accepted c line msg ha]
    exact ⟨rfl, rfl, rfl, rfl, rfl⟩

/-- A GGA line with the fix quality `256`. -/
def wideQuality : List UInt8 := bytes "$GNGGA,1,4000,N,300,W,256,8,1,100,M,50,M"

/-- The line is accepted, and the fix quality `0` is stored and published. -/
theorem wideQuality_not_gateKept :
    (parseGgaLine .exact wideQuality .zero).2.coords = some ⟨40, -3, 100, 0⟩ ∧
      ¬ GateKept .exact wideQuality .zero := by
  have hcoords : (parseGgaLine .exact wideQuality .zero).2.coords = some ⟨40, -3, 100, 0⟩ := by
    decide +kernel
  have hquality : (parseGgaLine .exact wideQuality .zero).2.fixQuality = 0 := by decide +kernel
  have hvalid : (parseGgaLine .exact wideQuality .zero).2.validCoords = true := by decide +kernel
  refine ⟨hcoords, ?_⟩
  rintro (⟨-, s, -, hpos, heq⟩ | ⟨hnot, -⟩)
  · rw [hquality] at heq
    exact absurd heq hpos.ne
  · exact Bool.noConfusion (hvalid.symm.trans hnot)

end Gate

/-! ### Positions -/

section Position

open Numeral

/-- An angle in degrees and minutes: `n` digits for the degrees, two for the whole minutes, and
possibly a point and digits for the rest of the minutes. -/
structure Angle (n : ℕ) where
  deg : List UInt8
  min : List UInt8
  frac : Option (List UInt8)
  length_deg : deg.length = n
  length_min : min.length = 2
  isDigit_deg : ∀ b ∈ deg, isDigit b
  isDigit_min : ∀ b ∈ min, isDigit b
  isDigit_frac : ∀ b ∈ frac.getD [], isDigit b
  min_lt : value min < 60

namespace Angle

variable {n : ℕ} (a : Angle n)

/-- The numeral that shows the angle. -/
def numeral : Decimal where
  neg := false
  whole := a.deg ++ a.min
  frac := a.frac
  isDigit_whole b hb := (List.mem_append.mp hb).elim (a.isDigit_deg b) (a.isDigit_min b)
  isDigit_frac := a.isDigit_frac
  ne_nil h := by
    have hmin := a.length_min
    simp only [List.append_eq_nil_iff] at h
    rw [h.1.2] at hmin
    cases hmin

def minutes : ℚ := value (a.min ++ a.numeral.fracDigits) / 10 ^ a.numeral.fracDigits.length

def degrees : ℚ := value a.deg + a.minutes / 60

theorem minutes_nonneg : 0 ≤ a.minutes := by
  unfold minutes
  positivity

theorem minutes_lt : a.minutes < 60 := by
  have hfrac := value_lt a.isDigit_frac
  have hmin := a.min_lt
  have hlt : value a.min * 10 ^ (a.frac.getD []).length + value (a.frac.getD []) <
      60 * 10 ^ (a.frac.getD []).length := by
    have hle := Nat.mul_le_mul_right (10 ^ (a.frac.getD []).length) (Nat.le_of_lt_succ hmin)
    omega
  rw [minutes, div_lt_iff₀ (by positivity), value_append]
  exact_mod_cast hlt

/-- The numeral has the degrees in the hundreds. -/
theorem val_numeral : a.numeral.val = 100 * value a.deg + a.minutes := by
  have hdigits : a.numeral.whole ++ a.numeral.fracDigits =
      a.deg ++ (a.min ++ a.numeral.fracDigits) := List.append_assoc _ _ _
  rw [Decimal.val, Decimal.abs, hdigits, value_append, List.length_append, a.length_min, minutes]
  simp only [numeral, signed, Bool.false_eq_true, if_false]
  push_cast
  field_simp
  ring

end Angle

/-- The conversion to `int` drops the fraction. -/
theorem toInt_eq_of_bounds (atof : List UInt8 → ℚ) (atoi : List UInt8 → ℤ) (cosf sinf : ℚ → ℚ)
    {x : ℚ} {k : ℕ} (h₁ : (k : ℚ) ≤ x) (h₂ : x < k + 1) :
    (Libc.exactWith atof atoi cosf sinf).toInt x = k := by
  have hfloor : ⌊x⌋ = k := Int.floor_eq_iff.mpr ⟨by exact_mod_cast h₁, by exact_mod_cast h₂⟩
  have hnonneg : 0 ≤ x.num := Rat.num_nonneg.mpr ((Nat.cast_nonneg k).trans h₁)
  rw [← hfloor, Rat.floor_def']
  exact Int.tdiv_eq_ediv_of_nonneg hnonneg

variable (cosf sinf : ℚ → ℚ)

/-- `nmea_deg` inverts the encoding of an angle. -/
theorem nmeaDeg_numeral {n : ℕ} (a : Angle n) :
    nmeaDeg (Libc.exactWith atof atoi cosf sinf) a.numeral.val = a.degrees := by
  have hnonneg := a.minutes_nonneg
  have hlt := a.minutes_lt
  have hint : (Libc.exactWith atof atoi cosf sinf).toInt (a.numeral.val / 100) = value a.deg := by
    apply toInt_eq_of_bounds
    · rw [a.val_numeral]
      linarith
    · rw [a.val_numeral]
      linarith
  change ((Libc.exactWith atof atoi cosf sinf).toInt (a.numeral.val / 100) : ℚ) +
    (a.numeral.val - (Libc.exactWith atof atoi cosf sinf).toInt (a.numeral.val / 100) * 100) / 60 =
      a.degrees
  rw [hint, a.val_numeral, Angle.degrees]
  push_cast
  ring

/-- What a GGA line says of a position. -/
structure Position where
  lat : Angle 2
  south : Bool
  lon : Angle 3
  west : Bool
  quality : List UInt8
  alt : Decimal
  lat_ne : lat.numeral.val ≠ 0
  lon_ne : lon.numeral.val ≠ 0
  isDigit_quality : ∀ b ∈ quality, isDigit b
  quality_pos : 0 < value quality
  quality_le : value quality ≤ 255

/-- The text of field number `n` of a line, counted from `1`. -/
def fieldText (line : List UInt8) (n : ℕ) : Option (List UInt8) :=
  ((fields comma line)[n - 1]?).map Token.text

namespace Position

variable (g : Position)

/-- `N` or `S`. -/
def ns : UInt8 := if g.south then 0x53 else 0x4E

/-- `E` or `W`. -/
def ew : UInt8 := if g.west then 0x57 else 0x45

theorem ns_ne_zero : g.ns ≠ 0 := by
  rw [ns]
  cases g.south <;> decide

theorem ew_ne_zero : g.ew ≠ 0 := by
  rw [ew]
  cases g.west <;> decide

theorem ite_ns (x : ℚ) : (if g.ns = 0x53 then -x else x) = signed g.south x := by
  rw [ns, signed]
  cases g.south <;> rfl

theorem ite_ew (x : ℚ) : (if g.ew = 0x57 then -x else x) = signed g.west x := by
  rw [ew, signed]
  cases g.west <;> rfl

/-- The coordinates of a position. -/
def coords : Coords ℚ where
  latDeg := signed g.south g.lat.degrees
  lonDeg := signed g.west g.lon.degrees
  altM := g.alt.val
  fixQuality := .ofNat (value g.quality)

/-- A line that shows a position. `s` is the C string in the array of the line. -/
structure Encodes (s : List UInt8) : Prop where
  start : bytes "$GNGGA," <+: s ∨ bytes "$GPGGA," <+: s
  length_le : s.length ≤ 199
  nonempty : ∀ n < 10, ∃ t, (fields comma s)[n]? = some t ∧ t.nonempty
  lat : fieldText s 3 = some g.lat.numeral.text
  ns : fieldText s 4 = some [g.ns]
  lon : fieldText s 5 = some g.lon.numeral.text
  ew : fieldText s 6 = some [g.ew]
  quality : fieldText s 7 = some g.quality
  alt : fieldText s 10 = some g.alt.text

variable {g} {line : List UInt8}

theorem Encodes.isGga (h : g.Encodes (cstr line)) : isGga line := by
  have htake {p : List UInt8} (hp : p <+: cstr line) (hlen : p.length = 7) :
      (cstr line).take 7 = p := by
    rw [← hlen]
    exact (List.prefix_iff_eq_take.mp hp).symm
  rw [Gnss.isGga, Bool.or_eq_true, strncmpEq, strncmpEq]
  rcases h.start with hp | hp
  · rw [htake hp rfl]
    exact .inl rfl
  · rw [htake hp rfl]
    exact .inr rfl

/-- The parser reads the first ten fields. -/
theorem Encodes.ggaText_eq (h : g.Encodes (cstr line)) {n : ℕ} (hpos : 1 ≤ n) (hn : n ≤ 10) :
    ggaText line n = fieldText (cstr line) n := by
  have hbuf : ggaBuf line = cstr line := List.take_of_length_le h.length_le
  obtain ⟨t, ht, hne⟩ := h.nonempty (n - 1) (by omega)
  rw [ggaText, ggaToken, hbuf, tokenAt_eq comma hpos, fieldText, ht]
  refine congrArg _ (getElem?_filter_of_all ht hne fun x hx => ?_)
  obtain ⟨i, hi, rfl⟩ := List.mem_take_iff_getElem.mp hx
  obtain ⟨u, hu, hune⟩ := h.nonempty i (by omega)
  rw [List.getElem?_eq_getElem (by omega), Option.some_inj] at hu
  rwa [hu]

theorem ggaLocals_of_encodes (h : g.Encodes (cstr line)) :
    ggaLocals (Libc.exactWith atof atoi cosf sinf) line =
      { lat := g.lat.numeral.val
        ns := g.ns
        lon := g.lon.numeral.val
        ew := g.ew
        fix := value g.quality
        alt := g.alt.val } := by
  have hatof (d : Decimal) : (Libc.exactWith atof atoi cosf sinf).atof d.text = d.val := d.atof_text
  have hatoi : (Libc.exactWith atof atoi cosf sinf).atoi g.quality = value g.quality :=
    atoi_of_digits g.isDigit_quality
  have htext {n : ℕ} (hpos : 1 ≤ n) (hn : n ≤ 10) := h.ggaText_eq hpos hn
  rw [ggaLocals, htext (n := 3) (by omega) (by omega), htext (n := 4) (by omega) (by omega),
    htext (n := 5) (by omega) (by omega), htext (n := 6) (by omega) (by omega),
    htext (n := 7) (by omega) (by omega), htext (n := 10) (by omega) (by omega), h.lat, h.ns, h.lon,
    h.ew, h.quality, h.alt]
  simp only [Option.elim_some, hatof, hatoi, List.headD_cons]

variable (g) in
/-- The record with the coordinates of a position. The rest of the record is left as it is. -/
def storedIn (msg : GnssT ℚ ℚ) : GnssT ℚ ℚ :=
  { msg with
    latDeg := g.coords.latDeg
    lonDeg := g.coords.lonDeg
    altM := g.coords.altM
    fixQuality := g.coords.fixQuality
    validCoords := true }

/-- The parser stores the position that a line shows. -/
theorem Encodes.parseGgaLine_eq (h : g.Encodes (cstr line)) (msg : GnssT ℚ ℚ) :
    parseGgaLine (Libc.exactWith atof atoi cosf sinf) line msg = (true, g.storedIn msg) := by
  have hlocals := ggaLocals_of_encodes cosf sinf h
  have haccepted : GgaAccepted (Libc.exactWith atof atoi cosf sinf) line :=
    { test := h.isGga
      fix := by
        rw [hlocals]
        change (0 : ℤ) < (value g.quality : ℕ)
        exact_mod_cast g.quality_pos
      lat := by
        rw [hlocals]
        exact decide_eq_false g.lat_ne
      lon := by
        rw [hlocals]
        exact decide_eq_false g.lon_ne
      ns := by
        rw [hlocals]
        exact g.ns_ne_zero
      ew := by
        rw [hlocals]
        exact g.ew_ne_zero }
  have hquality : UInt8.ofInt (value g.quality : ℕ) = .ofNat (value g.quality) := by
    rw [← UInt8.toNat_inj, UInt8.ofInt, UInt8.toNat_ofNat', UInt8.toNat_ofNat']
    omega
  have hcoords : lineCoords (Libc.exactWith atof atoi cosf sinf) line = g.coords := by
    rw [lineCoords, hlocals, GgaLocals.stored, nmeaDeg_numeral, nmeaDeg_numeral, coords]
    simp only [ite_ns, ite_ew, hquality]
  rw [parseGgaLine_of_accepted _ _ _ haccepted, hcoords]
  rfl

/-! ### Formatting -/

/-- The fields of a GGA line that the parser does not read. -/
structure Others where
  gps : Bool
  time : List UInt8
  satellites : List UInt8
  hdop : List UInt8
  rest : List (List UInt8)
  nonempty : time ≠ [] ∧ satellites ≠ [] ∧ hdop ≠ []
  plain : ∀ t ∈ time :: satellites :: hdop :: rest, comma ∉ t ∧ 0 ∉ t

variable (g) (o : Others)

/-- The fields of the line for a position. -/
def fieldsOf : List (List UInt8) :=
  [if o.gps then bytes "$GPGGA" else bytes "$GNGGA", o.time, g.lat.numeral.text, [g.ns],
    g.lon.numeral.text, [g.ew], g.quality, o.satellites, o.hdop, g.alt.text] ++ o.rest

/-- The line for a position. -/
def format : List UInt8 := [comma].intercalate (g.fieldsOf o)

theorem not_mem_of_isDigit {t : List UInt8} (h : ∀ b ∈ t, isDigit b ∨ b = 0x2D ∨ b = 0x2E) :
    comma ∉ t ∧ 0 ∉ t :=
  ⟨fun hb => absurd (h _ hb) (by decide), fun hb => absurd (h _ hb) (by decide)⟩

theorem fieldsOf_plain {t : List UInt8} (ht : t ∈ g.fieldsOf o) : comma ∉ t ∧ 0 ∉ t := by
  have hplain := o.plain
  simp only [List.forall_mem_cons] at hplain
  obtain ⟨htime, hsatellites, hhdop, hrest⟩ := hplain
  rcases List.mem_append.mp ht with ht | ht
  · simp only [List.mem_cons, List.not_mem_nil, or_false] at ht
    rcases ht with rfl | rfl | rfl | rfl | rfl | rfl | rfl | rfl | rfl | rfl
    · cases o.gps <;> decide
    · exact htime
    · exact not_mem_of_isDigit fun b hb => g.lat.numeral.mem_text hb
    · rw [ns]
      cases g.south <;> decide
    · exact not_mem_of_isDigit fun b hb => g.lon.numeral.mem_text hb
    · rw [ew]
      cases g.west <;> decide
    · exact not_mem_of_isDigit fun b hb => .inl (g.isDigit_quality b hb)
    · exact hsatellites
    · exact hhdop
    · exact not_mem_of_isDigit fun b hb => g.alt.mem_text hb
  · exact hrest t ht

theorem fieldText_format (n : ℕ) :
    fieldText (g.format o) n = (g.fieldsOf o)[n - 1]? := by
  have htexts := map_text_fields_intercalate (fun t ht => (g.fieldsOf_plain o ht).1)
    (List.append_ne_nil_of_left_ne_nil (List.cons_ne_nil _ _) _)
  rw [fieldText, ← List.getElem?_map, format, htexts]

theorem fieldsOf_ne_nil : ∀ n < 10, ∃ t, (g.fieldsOf o)[n]? = some t ∧ t ≠ [] := by
  intro n hn
  obtain ⟨htime, hsatellites, hhdop⟩ := o.nonempty
  have hquality : g.quality ≠ [] := fun h => by
    have hpos := g.quality_pos
    rw [h] at hpos
    exact absurd hpos (by decide)
  interval_cases n
  · exact ⟨_, rfl, by cases o.gps <;> decide⟩
  · exact ⟨_, rfl, htime⟩
  · exact ⟨_, rfl, g.lat.numeral.text_ne_nil⟩
  · exact ⟨_, rfl, List.cons_ne_nil _ _⟩
  · exact ⟨_, rfl, g.lon.numeral.text_ne_nil⟩
  · exact ⟨_, rfl, List.cons_ne_nil _ _⟩
  · exact ⟨_, rfl, hquality⟩
  · exact ⟨_, rfl, hsatellites⟩
  · exact ⟨_, rfl, hhdop⟩
  · exact ⟨_, rfl, g.alt.text_ne_nil⟩

/-- A line is a C string: it has no NUL. -/
theorem cstr_format : cstr (g.format o) = g.format o := by
  refine List.takeWhile_eq_self_iff.mpr fun b hb => ?_
  have hne : b ≠ 0 := by
    rintro rfl
    rcases mem_intercalate hb with hsep | ⟨t, ht, hzero⟩
    · exact absurd hsep (by decide)
    · exact (g.fieldsOf_plain o ht).2 hzero
  simpa using hne

theorem encodes_format (hlen : (g.format o).length ≤ 199) : g.Encodes (g.format o) where
  start := by
    rw [format, fieldsOf, List.cons_append, List.intercalate_cons_of_ne_nil (by simp)]
    cases o.gps
    · exact .inl (List.prefix_append _ _)
    · exact .inr (List.prefix_append _ _)
  length_le := hlen
  nonempty n hn := by
    obtain ⟨u, hu, hne⟩ := g.fieldsOf_ne_nil o n hn
    have htext := g.fieldText_format o (n + 1)
    rw [Nat.add_sub_cancel, hu, fieldText, Nat.add_sub_cancel, Option.map_eq_some_iff] at htext
    obtain ⟨t, ht, rfl⟩ := htext
    exact ⟨t, ht, Token.nonempty_iff.mpr hne⟩
  lat := g.fieldText_format o _
  ns := g.fieldText_format o _
  lon := g.fieldText_format o _
  ew := g.fieldText_format o _
  quality := g.fieldText_format o _
  alt := g.fieldText_format o _

/-- **Decoding inverts the encoding.** From every line that shows a position, and so from the line
that it is formatted to, the parser stores this position and nothing else. -/
theorem decoding_inverts_encoding :
    (∀ line, g.Encodes (cstr line) → ∀ msg,
      parseGgaLine (Libc.exactWith atof atoi cosf sinf) line msg = (true, g.storedIn msg)) ∧
    ∀ o : Others, (g.format o).length ≤ 199 → ∀ msg,
      parseGgaLine (Libc.exactWith atof atoi cosf sinf) (g.format o) msg =
        (true, g.storedIn msg) := by
  refine ⟨fun line h msg => h.parseGgaLine_eq cosf sinf msg, fun o hlen msg => ?_⟩
  have h : g.Encodes (cstr (g.format o)) := by
    rw [cstr_format]
    exact g.encodes_format o hlen
  exact h.parseGgaLine_eq cosf sinf msg

/-- A position of 40 degrees and 24.5 minutes north, 3 degrees and 41.25 minutes west. -/
def northWest : Position where
  lat :=
    { deg := bytes "40"
      min := bytes "24"
      frac := some (bytes "5")
      length_deg := rfl
      length_min := rfl
      isDigit_deg := List.all_eq_true.mp rfl
      isDigit_min := List.all_eq_true.mp rfl
      isDigit_frac := List.all_eq_true.mp rfl
      min_lt := by decide }
  south := false
  lon :=
    { deg := bytes "003"
      min := bytes "41"
      frac := some (bytes "25")
      length_deg := rfl
      length_min := rfl
      isDigit_deg := List.all_eq_true.mp rfl
      isDigit_min := List.all_eq_true.mp rfl
      isDigit_frac := List.all_eq_true.mp rfl
      min_lt := by decide }
  west := true
  quality := bytes "4"
  alt :=
    { neg := true
      whole := bytes "1"
      frac := some (bytes "5")
      isDigit_whole := List.all_eq_true.mp rfl
      isDigit_frac := List.all_eq_true.mp rfl
      ne_nil := by decide }
  lat_ne := by decide +kernel
  lon_ne := by decide +kernel
  isDigit_quality := List.all_eq_true.mp rfl
  quality_pos := by decide
  quality_le := by decide

/-- A line that shows it. -/
def northWestLine : List UInt8 := bytes "$GNGGA,1,4024.5,N,00341.25,W,4,9,1,-1.5,M,50,M"

theorem decoding_inverts_encoding_northWest :
    (parseGgaLine (.exactWith atof atoi id id)
      northWestLine .zero).2.coords =
        some ⟨40 + 49 / 120, -(3 + 11 / 16), -3 / 2, 4⟩ := by
  have h : northWest.Encodes (cstr northWestLine) :=
    { start := .inl (by decide +kernel)
      length_le := by decide +kernel
      nonempty := fun n hn => by
        have hall : ∀ n < 10,
            (((fields comma (cstr northWestLine))[n]?).filter Token.nonempty).isSome := by
          decide +kernel
        obtain ⟨t, ht⟩ := Option.isSome_iff_exists.mp (hall n hn)
        exact ⟨t, Option.filter_eq_some_iff.mp ht⟩
      lat := by decide +kernel
      ns := by decide +kernel
      lon := by decide +kernel
      ew := by decide +kernel
      quality := by decide +kernel
      alt := by decide +kernel }
  rw [(decoding_inverts_encoding id id northWest).1 _ h]
  decide +kernel

end Position

end Position

end PicoUros.Gnss
