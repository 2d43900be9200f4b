import PicoUros.Gnss.Parsers
import PicoUros.Lib.Fields

/-!
# Positional fields of the GNSS parsers

The formats of the receiver number the comma-separated fields of a line, empty ones included. The
parsers count the tokens of `strtok_r`, which never returns an empty one, in a copy of the line that
may be shorter than the line. The tests `tok[0]` in the loops are for empty tokens, which do not
come: an empty field shifts every field behind it.

A token is a pointer into the buffer, so the question is whether the token that a parser reads for a
field is that field of the line, and not merely equal to it as a string.

## Main definitions

* `ggaToken`, `gstToken`, `headingToken`: the token that a parser reads under a number.
* `GgaPositional`, `GstPositional`, `HeadingPositional`: every token read is the field of its
  number, or there is none and the field is empty.
* `GgaInPlace`, `GstInPlace`, `HeadingInPlace`: the fields in front are not empty and the copy does
  not cut the field.

## Main results

* `positional_iff_inPlace`: the exact condition, for the three parsers.
* `emptyFields_not_positional`: a GGA line whose altitude is read from the twelfth field.
-/

namespace PicoUros.Gnss

/-! ### Tokens and fields -/

/-- The token that the loop of `parse_gga_line` sees under the number `n`. -/
def ggaToken (line : List UInt8) (n : ℕ) : Option Token := tokenAt comma 1 (ggaBuf line) n

/-- The token that the loop of `parse_gst_line` sees under the number `n`. -/
def gstToken (line : List UInt8) (n : ℕ) : Option Token := tokenAt comma 1 (gstBuf line) n

/-- Token number `n` of the loop of `parse_headingga_line`, whose own counter is one ahead. -/
def headingToken (buf : List UInt8) (n : ℕ) : Option Token := tokenAt comma 2 buf (n + 1)

/-- The bytes of a line behind the first semicolon. -/
def afterSemicolon (line : List UInt8) : List UInt8 := (line.dropWhile (· != semicolon)).drop 1

/-- Field number `n` of a line, counted from `1`, when it is not empty. -/
def lineField (line : List UInt8) (n : ℕ) : Option Token := fieldAt comma line (n - 1)

/-- Latitude, N/S, longitude, E/W, fix quality and altitude are read from their fields. -/
def GgaPositional (line : List UInt8) : Prop :=
  ∀ n ∈ [3, 4, 5, 6, 7, 10], ggaToken line n = lineField line n

/-- The three standard deviations are read from their fields. -/
def GstPositional (line : List UInt8) : Prop :=
  ∀ n ∈ [7, 8, 9], gstToken line n = lineField line n

/-- Status, solution, baseline, heading, pitch and the two standard deviations are read from their
fields behind the semicolon. -/
def HeadingPositional (line buf : List UInt8) : Prop :=
  ∀ n ∈ [1, 2, 3, 4, 5, 7, 8], headingToken buf n = lineField (afterSemicolon line) n

def GgaInPlace (line : List UInt8) : Prop :=
  ∀ n ∈ [3, 4, 5, 6, 7, 10], InPlace comma (ggaBuf line).length line (n - 1)

def GstInPlace (line : List UInt8) : Prop :=
  ∀ n ∈ [7, 8, 9], InPlace comma (gstBuf line).length line (n - 1)

def HeadingInPlace (line buf : List UInt8) : Prop :=
  ∀ n ∈ [1, 2, 3, 4, 5, 7, 8], InPlace comma buf.length (afterSemicolon line) (n - 1)

/-! ### The buffers are copies of the line -/

theorem cstr_isPrefix (s : List UInt8) : cstr s <+: s :=
  List.takeWhile_prefix _

theorem strncpy_isPrefix (s : List UInt8) (n : ℕ) : strncpy s n <+: s := by
  have htake : strncpy s n <+: cstr s := List.take_prefix n _
  exact htake.trans (cstr_isPrefix s)

theorem headingBuf_isPrefix {line buf : List UInt8} (h : headingBuf line = some buf) :
    buf <+: afterSemicolon line := by
  obtain ⟨t, ht⟩ := cstr_isPrefix line
  rw [headingBuf, strchr] at h
  cases hd : (cstr line).dropWhile (· != semicolon) with
  | nil => simp [hd] at h
  | cons b s =>
    have hafter : afterSemicolon line = s ++ t := by
      rw [afterSemicolon, ← ht, List.dropWhile_append, hd]
      rfl
    cases s with
    | nil => simp [hd] at h
    | cons b s =>
      simp only [hd, Option.some.injEq] at h
      rw [← h, hafter]
      exact (strncpy_isPrefix _ _).trans (List.prefix_append _ _)

/-- The token under a number is the field of that number exactly if this field is in place. -/
theorem tokenAt_eq_fieldAt_iff {sep : UInt8} {buf line : List UInt8} (h : buf <+: line)
    (field k : ℕ) : tokenAt sep field buf (field + k) = fieldAt sep line k ↔
      InPlace sep buf.length line k := by
  rw [tokenAt_eq sep (Nat.le_add_right field k), Nat.add_sub_cancel_left]
  conv_lhs => rw [List.prefix_iff_eq_take.mp h]
  exact getElem?_filter_fields_take_iff h.length_le k

theorem tokenAt_eq_lineField_iff {buf line : List UInt8} (h : buf <+: line) (first : ℕ) {n : ℕ}
    (hn : n ≠ 0) : tokenAt comma first buf (first + n - 1) = lineField line n ↔
      InPlace comma buf.length line (n - 1) := by
  rw [lineField, ← tokenAt_eq_fieldAt_iff h first, Nat.add_sub_assoc (Nat.pos_of_ne_zero hn)]

theorem ggaPositional_iff (line : List UInt8) : GgaPositional line ↔ GgaInPlace line :=
  forall₂_congr fun n hn => by
    have hiff := tokenAt_eq_lineField_iff (strncpy_isPrefix line 199) 1 (n := n)
      (by rintro rfl; simp at hn)
    rwa [Nat.add_sub_cancel_left] at hiff

theorem gstPositional_iff (line : List UInt8) : GstPositional line ↔ GstInPlace line :=
  forall₂_congr fun n hn => by
    have hiff := tokenAt_eq_lineField_iff (strncpy_isPrefix line 159) 1 (n := n)
      (by rintro rfl; simp at hn)
    rwa [Nat.add_sub_cancel_left] at hiff

theorem headingPositional_iff {line buf : List UInt8} (h : headingBuf line = some buf) :
    HeadingPositional line buf ↔ HeadingInPlace line buf :=
  forall₂_congr fun n hn => by
    have hiff := tokenAt_eq_lineField_iff (headingBuf_isPrefix h) 2 (n := n)
      (by rintro rfl; simp at hn)
    rwa [show 2 + n - 1 = n + 1 by omega] at hiff

/-! ### The values of a valid record -/

variable {D F : Type} [Floating D] [Floating F] (c : Libc D F)

omit [Floating F] in
/-- Valid coordinates come from the tokens of the GGA line. -/
theorem coords_of_tokens {line : List UInt8} {msg : GnssT D F} {r : Coords D}
    (h : (parseGgaLine c line msg).2.coords = some r) :
    (ggaOf c (ggaToken line)).coords c = some r := by
  rw [coords_parseGgaLine, Option.ite_none_right_eq_some, ggaScan_eq] at h
  exact h.2

omit [Floating D] in
/-- Valid covariances come from the tokens of the GST line. -/
theorem cov_of_tokens {line : List UInt8} {msg : GnssT D F} {r : Cov D}
    (h : (parseGstLine c line msg).2.cov = some r) :
    (gstOf c (gstToken line)).cov c = some r := by
  rw [cov_parseGstLine, Option.ite_none_right_eq_some, gstScan_eq] at h
  exact h.2

omit [Floating D] in
/-- A valid heading comes from the tokens behind the semicolon. -/
theorem heading_of_tokens {line : List UInt8} {msg : GnssT D F} {r : Heading F}
    (h : (parseHeadinggaLine c line msg).2.heading = some r) :
    ∃ buf, headingBuf line = some buf ∧ (headingOf c (headingToken buf)).heading? c = some r := by
  rw [heading_parseHeadinggaLine, Option.ite_none_right_eq_some] at h
  obtain ⟨buf, hbuf, hr⟩ := Option.bind_eq_some_iff.mp h.2
  rw [headingScan_eq] at hr
  exact ⟨buf, hbuf, hr⟩

omit [Floating F] in
/-- The values of a line depend on the tokens read under the numbers of the format only. -/
theorem ggaOf_congr {tok tok' : ℕ → Option Token} (h : ∀ n ∈ [3, 4, 5, 6, 7, 10], tok n = tok' n) :
    ggaOf c tok = ggaOf c tok' := by
  simp only [ggaOf, h 3 (by simp), h 4 (by simp), h 5 (by simp), h 6 (by simp), h 7 (by simp),
    h 10 (by simp)]

omit [Floating D] in
theorem gstOf_congr {tok tok' : ℕ → Option Token} (h : ∀ n ∈ [7, 8, 9], tok n = tok' n) :
    gstOf c tok = gstOf c tok' := by
  simp only [gstOf, h 7 (by simp), h 8 (by simp), h 9 (by simp)]

omit [Floating D] in
theorem headingOf_congr {tok tok' : ℕ → Option Token}
    (h : ∀ n ∈ [1, 2, 3, 4, 5, 7, 8], tok n = tok' n) : headingOf c tok = headingOf c tok' := by
  simp only [headingOf, h 1 (by simp), h 2 (by simp), h 3 (by simp), h 4 (by simp), h 5 (by simp),
    h 7 (by simp), h 8 (by simp)]

/-- **When the parsers read the fields of the format.** Whenever a parser sets its validity flag,
its values come from the tokens under its numbers; these tokens are the fields of the line with
these numbers if and only if the fields are in place; and then the values are those of the
fields. -/
theorem positional_iff_inPlace (line : List UInt8) (msg : GnssT D F) :
    (∀ r, (parseGgaLine c line msg).2.coords = some r →
      (ggaOf c (ggaToken line)).coords c = some r ∧ (GgaPositional line ↔ GgaInPlace line) ∧
      (GgaPositional line → (ggaOf c (lineField line)).coords c = some r)) ∧
    (∀ r, (parseGstLine c line msg).2.cov = some r →
      (gstOf c (gstToken line)).cov c = some r ∧ (GstPositional line ↔ GstInPlace line) ∧
      (GstPositional line → (gstOf c (lineField line)).cov c = some r)) ∧
    (∀ r, (parseHeadinggaLine c line msg).2.heading = some r → ∃ buf,
      headingBuf line = some buf ∧ (headingOf c (headingToken buf)).heading? c = some r ∧
      (HeadingPositional line buf ↔ HeadingInPlace line buf) ∧
      (HeadingPositional line buf →
        (headingOf c (lineField (afterSemicolon line))).heading? c = some r)) := by
  refine ⟨fun r h => ?_, fun r h => ?_, fun r h => ?_⟩
  · have hr := coords_of_tokens c h
    exact ⟨hr, ggaPositional_iff line, fun hpos => by rwa [ggaOf_congr c hpos] at hr⟩
  · have hr := cov_of_tokens c h
    exact ⟨hr, gstPositional_iff line, fun hpos => by rwa [gstOf_congr c hpos] at hr⟩
  · obtain ⟨buf, hbuf, hr⟩ := heading_of_tokens c h
    exact ⟨buf, hbuf, hr, headingPositional_iff hbuf, fun hpos => by
      rwa [headingOf_congr c hpos] at hr⟩

instance (line : List UInt8) : Decidable (GgaPositional line) := by
  unfold GgaPositional
  infer_instance

instance (line : List UInt8) : Decidable (GgaInPlace line) := by
  unfold GgaInPlace
  infer_instance

instance (line : List UInt8) : Decidable (GstInPlace line) := by
  unfold GstInPlace
  infer_instance

instance (line buf : List UInt8) : Decidable (HeadingInPlace line buf) := by
  unfold HeadingInPlace
  infer_instance

/-- One line of each kind without empty fields. -/
def fullGga : List UInt8 := bytes "$GNGGA,1,4000,N,300,W,1,8,1,100,M,50,M"

def fullGst : List UInt8 := bytes "$GNGST,1,1,1,1,0,1,2,3"

def fullHeading : List UInt8 :=
  bytes "#UNIHEADINGA,90;SOL_COMPUTED,NARROW_INT,1,90,0,0,1,1"

theorem positional_iff_inPlace_full :
    (ggaOf .exact (lineField fullGga)).coords .exact = some ⟨40, -3, 100, 1⟩ ∧
      (gstOf .exact (lineField fullGst)).cov Libc.exact = some ⟨1, 4, 9⟩ ∧
      ∃ r,
        (headingOf .exact (lineField (afterSemicolon fullHeading))).heading? .exact = some r := by
  refine ⟨?_, ?_, ?_⟩
  · obtain ⟨-, hiff, hvalue⟩ := (positional_iff_inPlace .exact fullGga .zero).1 ⟨40, -3, 100, 1⟩
      (by decide +kernel)
    exact hvalue (hiff.mpr (by decide +kernel))
  · obtain ⟨-, hiff, hvalue⟩ := (positional_iff_inPlace .exact fullGst .zero).2.1 ⟨1, 4, 9⟩
      (by decide +kernel)
    exact hvalue (hiff.mpr (by decide +kernel))
  · obtain ⟨r, hr⟩ : ∃ r, (parseHeadinggaLine .exact fullHeading .zero).2.heading = some r :=
      Option.isSome_iff_exists.mp (by decide +kernel)
    obtain ⟨buf, hbuf, -, hiff, hvalue⟩ :=
      (positional_iff_inPlace .exact fullHeading .zero).2.2 r hr
    have hbuf' : headingBuf fullHeading =
        some (bytes "SOL_COMPUTED,NARROW_INT,1,90,0,0,1,1") := by decide +kernel
    cases hbuf.symm.trans hbuf'
    exact ⟨r, hvalue (hiff.mpr (by decide +kernel))⟩

/-- A GGA line without a number of satellites and without a dilution of precision. -/
def emptyFields : List UInt8 := bytes "$GNGGA,1,4000,N,300,W,1,,,100,M,50,M"

/-- The altitude of such a line, its tenth field, is `100`. The parser reads the twelfth field and
sets it to `50`. -/
theorem emptyFields_not_positional :
    emptyFields.length ≤ 219 ∧
      (parseGgaLine .exact emptyFields .zero).2.coords = some ⟨40, -3, 50, 1⟩ ∧
      (lineField emptyFields 10).map Token.text = some (bytes "100") ∧
      ¬ GgaPositional emptyFields := by
  decide +kernel

end PicoUros.Gnss
