import PicoUros.Gnss.Record
import PicoUros.Lib.CString

/-!
# The parsers of the GNSS lines

`parse_gga_line`, `parse_gst_line` and `parse_headingga_line` (`src/main.cpp`, lines 362–593) each
read one kind of line into the record. A line is given by the bytes of its array, and the parsers
see the C string in it. Each parser copies its part of the line into a buffer, goes through the
tokens of the buffer with a counter, and takes the tokens that it finds under certain counts.

## Main definitions

* `parseGgaLine`, `parseGstLine`, `parseHeadinggaLine`: the parsers. They return the record that
  they leave and whether they recognised the line.

## Main results

* `ggaScan_eq`, `gstScan_eq`, `headingScan_eq`: the loops read one token for each value.
* `coords_parseGgaLine`, `cov_parseGstLine`, `heading_parseHeadinggaLine`: what a parser sets does
  not depend on what the record held.
-/

namespace PicoUros.Gnss

variable {D F : Type} [Floating D] [Floating F] (c : Libc D F)

/-! ### GGA -/

/-- `nmea_deg`. -/
def nmeaDeg (degmin : D) : D :=
  let deg := c.toInt (degmin / lit 100)
  let minutes := degmin - c.ofInt deg * lit 100
  c.ofInt deg + minutes / lit 60

/-- The variables that `parse_gga_line` reads the tokens into. -/
@[ext] structure GgaLocals (D : Type) where
  lat : D
  lon : D
  alt : D
  ns : UInt8
  ew : UInt8
  fix : ℤ

/-- The body of the loop of `parse_gga_line`. -/
def ggaField (field : ℕ) (tok : Token) (v : GgaLocals D) : GgaLocals D :=
  if tok.text = [] then v
  else if field = 3 then { v with lat := c.atof tok.text }
  else if field = 4 then { v with ns := tok.text.headD 0 }
  else if field = 5 then { v with lon := c.atof tok.text }
  else if field = 6 then { v with ew := tok.text.headD 0 }
  else if field = 7 then { v with fix := c.atoi tok.text }
  else if field = 10 then { v with alt := c.atof tok.text }
  else v

/-- `,`. -/
def comma : UInt8 := 0x2C

/-- The loop of `parse_gga_line` over its buffer. -/
def ggaScan (buf : List UInt8) : GgaLocals D :=
  forTokens comma (ggaField c) 1 buf ⟨lit 0, lit 0, lit 0, 0, 0, 0⟩

/-- The buffer of `parse_gga_line`. -/
def ggaBuf (line : List UInt8) : List UInt8 := strncpy line 199

/-- `$GNGGA,` or `$GPGGA,`. -/
def isGga (line : List UInt8) : Bool :=
  strncmpEq line (bytes "$GNGGA,") 7 || strncmpEq line (bytes "$GPGGA,") 7

/-- The coordinates of a GGA line, unless the parser finds them invalid. -/
def GgaLocals.coords (v : GgaLocals D) : Option (Coords D) :=
  if v.fix ≤ 0 ∨ v.lat == lit 0 ∨ v.lon == lit 0 ∨ v.ns = 0 ∨ v.ew = 0 then none
  else
    let lat := nmeaDeg c v.lat
    let lon := nmeaDeg c v.lon
    let lat := if v.ns = 0x53 then -lat else lat
    let lon := if v.ew = 0x57 then -lon else lon
    some ⟨lat, lon, v.alt, .ofInt v.fix⟩

/-- `parse_gga_line`. -/
def parseGgaLine (line : List UInt8) (msg : GnssT D F) : Bool × GnssT D F :=
  let msg := { msg with validCoords := false }
  if !isGga line then (false, msg)
  else
    match (ggaScan c (ggaBuf line)).coords c with
    | none => (true, msg)
    | some r =>
      (true, { msg with
        latDeg := r.latDeg, lonDeg := r.lonDeg, altM := r.altM, fixQuality := r.fixQuality,
        validCoords := true })

/-! ### GST -/

/-- `if (n && tok[n - 1] == '\r') tok[n - 1] = 0;`. -/
def stripCr (tok : List UInt8) : List UInt8 :=
  if tok.getLast? = some 0x0D then tok.dropLast else tok

/-- The variables that `parse_gst_line` reads the tokens into. -/
@[ext] structure GstLocals (F : Type) where
  latStd : F
  lonStd : F
  altStd : F

/-- The body of the loop of `parse_gst_line`. -/
def gstField (field : ℕ) (tok : Token) (v : GstLocals F) : GstLocals F :=
  let text := stripCr tok.text
  if field = 7 ∧ text ≠ [] then { v with latStd := c.toFloat (c.atof text) }
  else if field = 8 ∧ text ≠ [] then { v with lonStd := c.toFloat (c.atof text) }
  else if field = 9 ∧ text ≠ [] then { v with altStd := c.toFloat (c.atof text) }
  else v

/-- The loop of `parse_gst_line` over its buffer. -/
def gstScan (buf : List UInt8) : GstLocals F :=
  forTokens comma (gstField c) 1 buf ⟨lit 0, lit 0, lit 0⟩

/-- The buffer of `parse_gst_line`. -/
def gstBuf (line : List UInt8) : List UInt8 := strncpy line 159

/-- `$GPGST,` or `$GNGST,`. -/
def isGst (line : List UInt8) : Bool :=
  strncmpEq line (bytes "$GPGST,") 7 || strncmpEq line (bytes "$GNGST,") 7

/-- The covariances of a GST line, unless the parser finds them invalid. -/
def GstLocals.cov (v : GstLocals F) : Option (Cov D) :=
  if leb v.latStd (lit 0) || leb v.lonStd (lit 0) || leb v.altStd (lit 0) then none
  else
    some ⟨c.toDouble (v.latStd * v.latStd), c.toDouble (v.lonStd * v.lonStd),
      c.toDouble (v.altStd * v.altStd)⟩

/-- `parse_gst_line`. -/
def parseGstLine (line : List UInt8) (msg : GnssT D F) : Bool × GnssT D F :=
  let msg := { msg with validCov := false }
  if !isGst line then (false, msg)
  else
    match (gstScan c (gstBuf line)).cov c with
    | none => (true, msg)
    | some r =>
      (true, { msg with
        covNorth := r.covNorth, covEast := r.covEast, covUp := r.covUp, validCov := true })

/-! ### HEADINGA and UNIHEADINGA -/

/-- `deg2rad`. -/
def deg2rad (angle : F) : F := angle * lit 0.017453292519943295

/-- The quaternion of `quat_from_rpy`: `qx`, `qy`, `qz` and `qw`. -/
def quatFromRpy (roll pitch yaw : F) : F × F × F × F :=
  let cy := c.cosf (yaw * lit 0.5)
  let sy := c.sinf (yaw * lit 0.5)
  let cp := c.cosf (pitch * lit 0.5)
  let sp := c.sinf (pitch * lit 0.5)
  let cr := c.cosf (roll * lit 0.5)
  let sr := c.sinf (roll * lit 0.5)
  let qw := cr * cp * cy + sr * sp * sy
  let qx := sr * cp * cy - cr * sp * sy
  let qy := cr * sp * cy + sr * cp * sy
  let qz := cr * cp * sy - sr * sp * cy
  (qx, qy, qz, qw)

/-- The variables that `parse_headingga_line` reads the tokens into. -/
@[ext] structure HeadingLocals (F : Type) where
  status : Option (List UInt8)
  sol : Option (List UInt8)
  baseline : F
  heading : F
  pitch : F
  hstd : F
  pstd : F

/-- The body of the loop of `parse_headingga_line`. -/
def headingField (field : ℕ) (tok : Token) (v : HeadingLocals F) : HeadingLocals F :=
  let text := stripCr tok.text
  if field = 2 then { v with status := some text }
  else if field = 3 then { v with sol := some text }
  else if field = 4 ∧ text ≠ [] then { v with baseline := c.toFloat (c.atof text) }
  else if field = 5 ∧ text ≠ [] then { v with heading := c.toFloat (c.atof text) }
  else if field = 6 ∧ text ≠ [] then { v with pitch := c.toFloat (c.atof text) }
  else if field = 8 ∧ text ≠ [] then { v with hstd := c.toFloat (c.atof text) }
  else if field = 9 ∧ text ≠ [] then { v with pstd := c.toFloat (c.atof text) }
  else v

/-- The loop of `parse_headingga_line` over its buffer, whose counter starts at `2`. -/
def headingScan (buf : List UInt8) : HeadingLocals F :=
  forTokens comma (headingField c) 2 buf ⟨none, none, lit 0, lit 0, lit 0, lit 0, lit 0⟩

/-- `;`. -/
def semicolon : UInt8 := 0x3B

/-- The buffer of `parse_headingga_line`: what comes after the first semicolon, if anything. -/
def headingBuf (line : List UInt8) : Option (List UInt8) :=
  match strchr line semicolon with
  | some (_ :: b :: rest) => some (strncpy (b :: rest) 219)
  | _ => none

/-- Twelve characters of `#UNIHEADINGA,` or nine of `#HEADINGA,`. -/
def isHeading (line : List UInt8) : Bool :=
  strncmpEq line (bytes "#UNIHEADINGA,") 12 || strncmpEq line (bytes "#HEADINGA,") 9

/-- The heading of a line, unless the parser finds it invalid. -/
def HeadingLocals.heading? (v : HeadingLocals F) : Option (Heading F) :=
  if leb v.baseline (lit 0) then none
  else
    match v.status, v.sol with
    | some status, some sol =>
      if strncmpEq status (bytes "INSUFFICIENT_OBS") 16 then none
      else if strcmpEq sol (bytes "NONE") then none
      else
        let yawRad := deg2rad (lit 90 - v.heading)
        let pitchRad := deg2rad v.pitch
        let yawStdRad := deg2rad v.hstd
        let pitchStdRad := deg2rad v.pstd
        let (qx, qy, qz, qw) := quatFromRpy c (lit 0) pitchRad yawRad
        some ⟨qx, qy, qz, qw, yawStdRad * yawStdRad, pitchStdRad * pitchStdRad, lit 90 - v.heading,
          v.pitch, status.take 19, sol.take 19⟩
    | _, _ => none

/-- `parse_headingga_line`. -/
def parseHeadinggaLine (line : List UInt8) (msg : GnssT D F) : Bool × GnssT D F :=
  let msg := { msg with
    validHeading := false, qx := lit 0, qy := lit 0, qz := lit 0, qw := lit 1, yawDeg := lit 0,
    pitchDeg := lit 0, yawVar := lit 99999, pitchVar := lit 99999, headingStatus := [],
    headingSol := [] }
  if !isHeading line then (false, msg)
  else
    match (headingBuf line).bind fun buf => (headingScan c buf).heading? c with
    | none => (true, msg)
    | some r =>
      (true, { msg with
        qx := r.qx, qy := r.qy, qz := r.qz, qw := r.qw, yawVar := r.yawVar,
        pitchVar := r.pitchVar, yawDeg := r.yawDeg, pitchDeg := r.pitchDeg,
        headingStatus := r.headingStatus, headingSol := r.headingSol, validHeading := true })

/-! ### One token for each value -/

/-- The variables of `parse_gga_line` when it takes its values from the given tokens. -/
def ggaOf (tok : ℕ → Option Token) : GgaLocals D where
  lat := (tok 3).elim (lit 0) fun t => c.atof t.text
  ns := (tok 4).elim 0 fun t => t.text.headD 0
  lon := (tok 5).elim (lit 0) fun t => c.atof t.text
  ew := (tok 6).elim 0 fun t => t.text.headD 0
  fix := (tok 7).elim 0 fun t => c.atoi t.text
  alt := (tok 10).elim (lit 0) fun t => c.atof t.text

/-- The `float` that a token sets a variable to, which is `old` before. -/
def readFloat (t : Token) (old : F) : F :=
  if stripCr t.text = [] then old else c.toFloat (c.atof (stripCr t.text))

/-- The variables of `parse_gst_line` when it takes its values from the given tokens. -/
def gstOf (tok : ℕ → Option Token) : GstLocals F where
  latStd := (tok 7).elim (lit 0) fun t => readFloat c t (lit 0)
  lonStd := (tok 8).elim (lit 0) fun t => readFloat c t (lit 0)
  altStd := (tok 9).elim (lit 0) fun t => readFloat c t (lit 0)

/-- The variables of `parse_headingga_line` when it takes its values from the given tokens, which
are counted from `1` here. -/
def headingOf (tok : ℕ → Option Token) : HeadingLocals F where
  status := (tok 1).elim none fun t => some (stripCr t.text)
  sol := (tok 2).elim none fun t => some (stripCr t.text)
  baseline := (tok 3).elim (lit 0) fun t => readFloat c t (lit 0)
  heading := (tok 4).elim (lit 0) fun t => readFloat c t (lit 0)
  pitch := (tok 5).elim (lit 0) fun t => readFloat c t (lit 0)
  hstd := (tok 7).elim (lit 0) fun t => readFloat c t (lit 0)
  pstd := (tok 8).elim (lit 0) fun t => readFloat c t (lit 0)

omit [Floating D] [Floating F] in
/-- A token sets the variable of its number. -/
theorem ggaField_eq {tok : Token} (ht : tok.text ≠ []) (k : ℕ) (v : GgaLocals D) :
    ggaField c k tok v =
      { lat := if k = 3 then c.atof tok.text else v.lat
        ns := if k = 4 then tok.text.headD 0 else v.ns
        lon := if k = 5 then c.atof tok.text else v.lon
        ew := if k = 6 then tok.text.headD 0 else v.ew
        fix := if k = 7 then c.atoi tok.text else v.fix
        alt := if k = 10 then c.atof tok.text else v.alt } := by
  rw [ggaField, if_neg ht]
  split_ifs <;> first | rfl | omega

omit [Floating D] [Floating F] in
theorem gstField_eq (tok : Token) (k : ℕ) (v : GstLocals F) :
    gstField c k tok v =
      { latStd := if k = 7 then readFloat c tok v.latStd else v.latStd
        lonStd := if k = 8 then readFloat c tok v.lonStd else v.lonStd
        altStd := if k = 9 then readFloat c tok v.altStd else v.altStd } := by
  rw [gstField, readFloat, readFloat, readFloat]
  by_cases h : stripCr tok.text = []
  · simp [h]
  · simp only [h, ne_eq, not_false_eq_true, and_true, if_false]
    split_ifs <;> first | rfl | omega

omit [Floating D] [Floating F] in
theorem headingField_eq (tok : Token) (k : ℕ) (v : HeadingLocals F) :
    headingField c k tok v =
      { status := if k = 2 then some (stripCr tok.text) else v.status
        sol := if k = 3 then some (stripCr tok.text) else v.sol
        baseline := if k = 4 then readFloat c tok v.baseline else v.baseline
        heading := if k = 5 then readFloat c tok v.heading else v.heading
        pitch := if k = 6 then readFloat c tok v.pitch else v.pitch
        hstd := if k = 8 then readFloat c tok v.hstd else v.hstd
        pstd := if k = 9 then readFloat c tok v.pstd else v.pstd } := by
  simp only [headingField, readFloat]
  by_cases h : stripCr tok.text = []
  · simp only [h, ne_eq, not_true_eq_false, and_false, if_true, if_false, ite_self]
    split_ifs <;> first | rfl | omega
  · simp only [h, ne_eq, not_false_eq_true, and_true, if_false]
    split_ifs <;> first | rfl | omega

omit [Floating F] in
theorem ggaScan_eq (buf : List UInt8) : ggaScan c buf = ggaOf c (tokenAt comma 1 buf) := by
  have hread {β : Type} (get : GgaLocals D → β) (n : ℕ) (hn : 1 ≤ n) (upd : Token → β)
      (hbody : ∀ k tok v, tok.text ≠ [] →
        get (ggaField c k tok v) = if k = n then upd tok else get v) :
      get (ggaScan c buf) = (tokenAt comma 1 buf n).elim _ upd :=
    get_forTokens get n (fun tok _ => upd tok) hbody comma hn buf _
  apply GgaLocals.ext
  · exact hread GgaLocals.lat 3 (by decide) (fun t => c.atof t.text)
      fun k _ v ht => by rw [ggaField_eq c ht]
  · exact hread GgaLocals.lon 5 (by decide) (fun t => c.atof t.text)
      fun k _ v ht => by rw [ggaField_eq c ht]
  · exact hread GgaLocals.alt 10 (by decide) (fun t => c.atof t.text)
      fun k _ v ht => by rw [ggaField_eq c ht]
  · exact hread GgaLocals.ns 4 (by decide) (fun t => t.text.headD 0)
      fun k _ v ht => by rw [ggaField_eq c ht]
  · exact hread GgaLocals.ew 6 (by decide) (fun t => t.text.headD 0)
      fun k _ v ht => by rw [ggaField_eq c ht]
  · exact hread GgaLocals.fix 7 (by decide) (fun t => c.atoi t.text)
      fun k _ v ht => by rw [ggaField_eq c ht]

omit [Floating D] in
theorem gstScan_eq (buf : List UInt8) : gstScan c buf = gstOf c (tokenAt comma 1 buf) := by
  have hread (get : GstLocals F → F) (n : ℕ) (hn : 1 ≤ n)
      (hbody : ∀ k tok v, get (gstField c k tok v) =
        if k = n then readFloat c tok (get v) else get v) :
      get (gstScan c buf) = (tokenAt comma 1 buf n).elim _ fun t => readFloat c t _ :=
    get_forTokens get n (readFloat c) (fun k tok v _ => hbody k tok v) comma hn buf _
  apply GstLocals.ext
  · exact hread GstLocals.latStd 7 (by decide) fun k tok v => by rw [gstField_eq]
  · exact hread GstLocals.lonStd 8 (by decide) fun k tok v => by rw [gstField_eq]
  · exact hread GstLocals.altStd 9 (by decide) fun k tok v => by rw [gstField_eq]

omit [Floating D] in
/-- The counter of the loop starts at `2`, so a token has the count of its number plus one. -/
theorem headingScan_eq (buf : List UInt8) :
    headingScan c buf = headingOf c fun n => tokenAt comma 2 buf (n + 1) := by
  have hread {β : Type} (get : HeadingLocals F → β) (n : ℕ) (hn : 2 ≤ n) (upd : Token → β → β)
      (hbody : ∀ k tok v, get (headingField c k tok v) =
        if k = n then upd tok (get v) else get v) :
      get (headingScan c buf) = (tokenAt comma 2 buf n).elim _ fun t => upd t _ :=
    get_forTokens get n upd (fun k tok v _ => hbody k tok v) comma hn buf _
  apply HeadingLocals.ext
  · exact hread HeadingLocals.status 2 (by decide) (fun t _ => some (stripCr t.text))
      fun k tok v => by rw [headingField_eq]
  · exact hread HeadingLocals.sol 3 (by decide) (fun t _ => some (stripCr t.text))
      fun k tok v => by rw [headingField_eq]
  · exact hread HeadingLocals.baseline 4 (by decide) (readFloat c)
      fun k tok v => by rw [headingField_eq]
  · exact hread HeadingLocals.heading 5 (by decide) (readFloat c)
      fun k tok v => by rw [headingField_eq]
  · exact hread HeadingLocals.pitch 6 (by decide) (readFloat c)
      fun k tok v => by rw [headingField_eq]
  · exact hread HeadingLocals.hstd 8 (by decide) (readFloat c)
      fun k tok v => by rw [headingField_eq]
  · exact hread HeadingLocals.pstd 9 (by decide) (readFloat c)
      fun k tok v => by rw [headingField_eq]

/-! ### What a parser sets -/

omit [Floating F] in
@[simp] theorem parseGgaLine_fst (line : List UInt8) (msg : GnssT D F) :
    (parseGgaLine c line msg).1 = isGga line := by
  cases h : isGga line <;> simp only [parseGgaLine, h]
  · rfl
  · cases (ggaScan c (ggaBuf line)).coords c <;> rfl

omit [Floating D] in
@[simp] theorem parseGstLine_fst (line : List UInt8) (msg : GnssT D F) :
    (parseGstLine c line msg).1 = isGst line := by
  cases h : isGst line <;> simp only [parseGstLine, h]
  · rfl
  · cases (gstScan c (gstBuf line)).cov c <;> rfl

omit [Floating D] in
@[simp] theorem parseHeadinggaLine_fst (line : List UInt8) (msg : GnssT D F) :
    (parseHeadinggaLine c line msg).1 = isHeading line := by
  cases h : isHeading line <;> simp only [parseHeadinggaLine, h]
  · rfl
  · cases (headingBuf line).bind fun buf => (headingScan c buf).heading? c <;> rfl

omit [Floating F] in
/-- The coordinates after `parse_gga_line` come from the line alone. -/
theorem coords_parseGgaLine (line : List UInt8) (msg : GnssT D F) :
    (parseGgaLine c line msg).2.coords =
      if isGga line then (ggaScan c (ggaBuf line)).coords c else none := by
  cases h : isGga line <;> simp only [parseGgaLine, h]
  · rfl
  · cases (ggaScan c (ggaBuf line)).coords c <;> rfl

omit [Floating D] in
/-- The covariances after `parse_gst_line` come from the line alone. -/
theorem cov_parseGstLine (line : List UInt8) (msg : GnssT D F) :
    (parseGstLine c line msg).2.cov =
      if isGst line then (gstScan c (gstBuf line)).cov c else none := by
  cases h : isGst line <;> simp only [parseGstLine, h]
  · rfl
  · cases (gstScan c (gstBuf line)).cov c <;> rfl

omit [Floating D] in
/-- The heading after `parse_headingga_line` comes from the line alone. -/
theorem heading_parseHeadinggaLine (line : List UInt8) (msg : GnssT D F) :
    (parseHeadinggaLine c line msg).2.heading =
      if isHeading line then (headingBuf line).bind fun buf => (headingScan c buf).heading? c
      else none := by
  cases h : isHeading line <;> simp only [parseHeadinggaLine, h]
  · rfl
  · cases (headingBuf line).bind fun buf => (headingScan c buf).heading? c <;> rfl

omit [Floating F] in
/-- `parse_gga_line` leaves the other two parts of the record alone. -/
theorem frame_parseGgaLine (line : List UInt8) (msg : GnssT D F) :
    (parseGgaLine c line msg).2.cov = msg.cov ∧
      (parseGgaLine c line msg).2.heading = msg.heading := by
  cases h : isGga line <;> simp only [parseGgaLine, h]
  · exact ⟨rfl, rfl⟩
  · cases (ggaScan c (ggaBuf line)).coords c <;> exact ⟨rfl, rfl⟩

omit [Floating D] in
/-- `parse_gst_line` leaves the other two parts of the record alone. -/
theorem frame_parseGstLine (line : List UInt8) (msg : GnssT D F) :
    (parseGstLine c line msg).2.coords = msg.coords ∧
      (parseGstLine c line msg).2.heading = msg.heading := by
  cases h : isGst line <;> simp only [parseGstLine, h]
  · exact ⟨rfl, rfl⟩
  · cases (gstScan c (gstBuf line)).cov c <;> exact ⟨rfl, rfl⟩

omit [Floating D] in
/-- `parse_headingga_line` leaves the other two parts of the record alone. -/
theorem frame_parseHeadinggaLine (line : List UInt8) (msg : GnssT D F) :
    (parseHeadinggaLine c line msg).2.coords = msg.coords ∧
      (parseHeadinggaLine c line msg).2.cov = msg.cov := by
  cases h : isHeading line <;> simp only [parseHeadinggaLine, h]
  · exact ⟨rfl, rfl⟩
  · cases (headingBuf line).bind fun buf => (headingScan c buf).heading? c <;> exact ⟨rfl, rfl⟩

end PicoUros.Gnss
