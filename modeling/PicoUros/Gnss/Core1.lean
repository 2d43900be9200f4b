import PicoUros.Gnss.Parsers

/-!
# The GNSS loop of core 1

Core 1 takes the bytes of the receiver out of the ring one by one and assembles lines in a buffer
(`src/main.cpp`, lines 796–897). A line that is complete goes to the parser of its kind. When a GGA,
a GST and a heading line have been parsed the record is sent to core 0. A byte for which the buffer
has no room is dropped together with the line collected so far, and the three flags are reset.

`byteStep` is one pass of the loop, and its outcome says what the pass did besides updating the
variables.

## Main definitions

* `Kind`, `lineKind`: the three kinds of lines, and the kind that the dispatcher sees in a line.
* `State`, `byteStep`: the variables of the loop and one pass of it.
* `Out`, `feed`, `outs`: the outcome of a pass, and passes over a list of bytes.

## Main results

* `dispatch_of_kind`, `dispatch_of_other`: a line of a kind is parsed into its part of the record
  and sets its flag, and any other line leaves the record and the flags alone.
* `byteStep_cr`, `byteStep_newline`, `byteStep_append`, `byteStep_overlong`: the four kinds of
  passes.
-/

namespace PicoUros.Gnss

variable {D F : Type} [Floating D] [Floating F] (c : Libc D F)

/-! ### Kinds of lines -/

inductive Kind where
  | gga
  | gst
  | heading
  deriving DecidableEq

/-- The parser of a kind. -/
def Kind.parse : Kind → List UInt8 → GnssT D F → Bool × GnssT D F
  | .gga => parseGgaLine c
  | .gst => parseGstLine c
  | .heading => parseHeadinggaLine c

/-- The test for a kind, which both the dispatcher and the parser make. -/
def Kind.test : Kind → List UInt8 → Bool
  | .gga => isGga
  | .gst => isGst
  | .heading => isHeading

/-- The kind of a line. -/
def lineKind (line : List UInt8) : Option Kind :=
  if isGga line then some .gga
  else if isGst line then some .gst
  else if isHeading line then some .heading
  else none

/-- Two records agree on the part of a kind, fields behind a false validity flag excepted. -/
def Kind.Same (k : Kind) (r r' : GnssT D F) : Prop :=
  match k with
  | .gga => r.coords = r'.coords
  | .gst => r.cov = r'.cov
  | .heading => r.heading = r'.heading

omit [Floating D] [Floating F] in
theorem Kind.Same.trans {k : Kind} {r s t : GnssT D F} (h : k.Same r s) (h' : k.Same s t) :
    k.Same r t := by
  cases k <;> exact Eq.trans h h'

theorem Kind.test_of_lineKind {line : List UInt8} {k : Kind} (h : lineKind line = some k) :
    k.test line := by
  unfold lineKind at h
  split_ifs at h with h₁ h₂ h₃ <;> cases h <;> assumption

/-- What a parser sets does not depend on what the record held. -/
theorem Kind.parse_same (k : Kind) (line : List UInt8) (r r' : GnssT D F) :
    k.Same (k.parse c line r).2 (k.parse c line r').2 := by
  cases k
  · exact (coords_parseGgaLine c line r).trans (coords_parseGgaLine c line r').symm
  · exact (cov_parseGstLine c line r).trans (cov_parseGstLine c line r').symm
  · exact (heading_parseHeadinggaLine c line r).trans (heading_parseHeadinggaLine c line r').symm

/-- A parser leaves the parts of the other kinds alone. -/
theorem Kind.parse_frame {k k' : Kind} (h : k ≠ k') (line : List UInt8) (r : GnssT D F) :
    k'.Same (k.parse c line r).2 r := by
  cases k <;> cases k' <;> try exact absurd rfl h
  · exact (frame_parseGgaLine c line r).1
  · exact (frame_parseGgaLine c line r).2
  · exact (frame_parseGstLine c line r).1
  · exact (frame_parseGstLine c line r).2
  · exact (frame_parseHeadinggaLine c line r).1
  · exact (frame_parseHeadinggaLine c line r).2

/-- A parser recognises the lines of its kind. -/
theorem Kind.parse_fst (k : Kind) (line : List UInt8) (r : GnssT D F) :
    (k.parse c line r).1 = k.test line := by
  cases k
  · exact parseGgaLine_fst c line r
  · exact parseGstLine_fst c line r
  · exact parseHeadinggaLine_fst c line r

/-! ### The loop -/

/-- The bytes collected in `char line[220]`, one of which is left for the final NUL. -/
structure LineBuf where
  bytes : List UInt8 := []
  length_le : bytes.length ≤ 219 := by decide

structure State (D F : Type) where
  line : LineBuf := {}
  gnss : GnssT D F
  /-- `cycle_has_gga`. -/
  hasGga : Bool := false
  /-- `cycle_has_gst`. -/
  hasGst : Bool := false
  /-- `cycle_has_heading`. -/
  hasHeading : Bool := false
  linesTotal : UInt32 := 0
  ggaLines : UInt32 := 0
  gstLines : UInt32 := 0
  headingLines : UInt32 := 0
  otherLines : UInt32 := 0
  lineOverlong : UInt32 := 0
  maxLineLen : ℕ := 0

/-- The variables when the loop starts. -/
def State.init : State D F := { gnss := .zero }

/-- The flag of a kind. -/
def State.has (s : State D F) : Kind → Bool
  | .gga => s.hasGga
  | .gst => s.hasGst
  | .heading => s.hasHeading

/-- What a pass of the loop did: a line was dispatched, and possibly a record pushed, or the line
collected so far was dropped, or neither. -/
inductive Out (D F : Type) where
  | nothing
  | line (l : List UInt8) (pushed : Option (GnssT D F))
  | overlong
  deriving DecidableEq

/-- The line that a pass dispatched. -/
def Out.line? : Out D F → Option (List UInt8)
  | .line l _ => some l
  | _ => none

/-- The record that a pass pushed. -/
def Out.pushed : Out D F → Option (GnssT D F)
  | .line _ pushed => pushed
  | _ => none

/-- The dispatcher. -/
def dispatch (line : List UInt8) (s : State D F) : State D F :=
  if line.headD 0 = 0x24 then
    if isGga line then
      let s := { s with ggaLines := s.ggaLines + 1 }
      let (ok, gnss) := parseGgaLine c line s.gnss
      { s with gnss := gnss, hasGga := if ok then true else s.hasGga }
    else if isGst line then
      let s := { s with gstLines := s.gstLines + 1 }
      let (ok, gnss) := parseGstLine c line s.gnss
      { s with gnss := gnss, hasGst := if ok then true else s.hasGst }
    else { s with otherLines := s.otherLines + 1 }
  else if line.headD 0 = 0x23 then
    if isHeading line then
      let s := { s with headingLines := s.headingLines + 1 }
      let (ok, gnss) := parseHeadinggaLine c line s.gnss
      { s with gnss := gnss, hasHeading := if ok then true else s.hasHeading }
    else { s with otherLines := s.otherLines + 1 }
  else { s with otherLines := s.otherLines + 1 }

/-- Count the line in the buffer and empty the buffer. -/
def State.countLine (s : State D F) : State D F :=
  { s with
    linesTotal := s.linesTotal + 1, maxLineLen := max s.maxLineLen s.line.bytes.length, line := {} }

/-- Push the record if all three flags are set, after the line `l` was dispatched. -/
def pushIfComplete (l : List UInt8) (s : State D F) : State D F × Out D F :=
  if s.hasGga && s.hasGst && s.hasHeading then
    ({ s with hasGga := false, hasGst := false, hasHeading := false }, .line l (some s.gnss))
  else (s, .line l none)

/-- The end of a line. -/
def lineEnd (s : State D F) : State D F × Out D F :=
  pushIfComplete s.line.bytes (dispatch c s.line.bytes s.countLine)

/-- One pass of the loop, for a byte popped from the ring. -/
def byteStep (s : State D F) (b : UInt8) : State D F × Out D F :=
  if b = 0x0D then (s, .nothing)
  else if b = 0x0A then lineEnd c s
  else if h : s.line.bytes.length < 219 then
    ({ s with line := ⟨s.line.bytes ++ [b], by rwa [List.length_append]⟩ }, .nothing)
  else
    ({ s with
      lineOverlong := s.lineOverlong + 1, line := {}, hasGga := false, hasGst := false,
      hasHeading := false }, .overlong)

/-- The variables after passes for a list of bytes. -/
def feed (s : State D F) (bs : List UInt8) : State D F := bs.foldl (fun s b => (byteStep c s b).1) s

/-- The outcomes of passes for a list of bytes. -/
def outs : State D F → List UInt8 → List (Out D F)
  | _, [] => []
  | s, b :: bs => (byteStep c s b).2 :: outs (byteStep c s b).1 bs

@[simp] theorem feed_nil (s : State D F) : feed c s [] = s := rfl

@[simp] theorem feed_concat (s : State D F) (bs : List UInt8) (b : UInt8) :
    feed c s (bs ++ [b]) = (byteStep c (feed c s bs) b).1 := by
  rw [feed, List.foldl_append]
  rfl

theorem feed_append (s : State D F) (as bs : List UInt8) :
    feed c s (as ++ bs) = feed c (feed c s as) bs :=
  List.foldl_append

theorem outs_append (s : State D F) (as bs : List UInt8) :
    outs c s (as ++ bs) = outs c s as ++ outs c (feed c s as) bs := by
  induction as generalizing s with
  | nil => rfl
  | cons a as ih => exact congrArg _ (ih _)

@[simp] theorem outs_nil (s : State D F) : outs c s [] = [] := rfl

@[simp] theorem outs_concat (s : State D F) (bs : List UInt8) (b : UInt8) :
    outs c s (bs ++ [b]) = outs c s bs ++ [(byteStep c (feed c s bs) b).2] :=
  outs_append c s bs [b]

/-! ### What the dispatcher does -/

theorem headD_of_strncmpEq {line lit : List UInt8} {n : ℕ} {b : UInt8}
    (hlit : (cstr lit).take n = b :: ((cstr lit).take n).tail) (h : strncmpEq line lit n) :
    line.headD 0 = b := by
  have heq : (cstr line).take n = (cstr lit).take n := by simpa [strncmpEq] using h
  rw [hlit] at heq
  cases line with
  | nil => simp [cstr] at heq
  | cons a line =>
    by_cases ha : a = 0
    · simp [cstr, ha] at heq
    · cases n with
      | zero => simp at heq
      | succ n =>
        rw [cstr, List.takeWhile_cons_of_pos (by simpa using ha), List.take_succ_cons] at heq
        exact (List.cons.inj heq).1

theorem headD_of_isGga {line : List UInt8} (h : isGga line) : line.headD 0 = 0x24 := by
  rcases Bool.or_eq_true_iff.mp h with h | h <;> exact headD_of_strncmpEq rfl h

theorem headD_of_isGst {line : List UInt8} (h : isGst line) : line.headD 0 = 0x24 := by
  rcases Bool.or_eq_true_iff.mp h with h | h <;> exact headD_of_strncmpEq rfl h

theorem headD_of_isHeading {line : List UInt8} (h : isHeading line) : line.headD 0 = 0x23 := by
  rcases Bool.or_eq_true_iff.mp h with h | h <;> exact headD_of_strncmpEq rfl h

theorem dispatch_gga {line : List UInt8} (h : isGga line) (s : State D F) :
    dispatch c line s = { s with
      ggaLines := s.ggaLines + 1, gnss := (parseGgaLine c line s.gnss).2, hasGga := true } := by
  rw [dispatch, if_pos (headD_of_isGga h), if_pos h]
  simp [h]

theorem dispatch_gst {line : List UInt8} (h : isGst line) (hgga : ¬ isGga line) (s : State D F) :
    dispatch c line s = { s with
      gstLines := s.gstLines + 1, gnss := (parseGstLine c line s.gnss).2, hasGst := true } := by
  rw [dispatch, if_pos (headD_of_isGst h), if_neg hgga, if_pos h]
  simp [h]

theorem dispatch_heading {line : List UInt8} (h : isHeading line) (s : State D F) :
    dispatch c line s = { s with
      headingLines := s.headingLines + 1, gnss := (parseHeadinggaLine c line s.gnss).2,
      hasHeading := true } := by
  have hhead := headD_of_isHeading h
  rw [dispatch, if_neg (by rw [hhead]; decide), if_pos hhead, if_pos h]
  simp [h]

/-- A line of no kind is only counted. -/
theorem dispatch_of_other {line : List UInt8} (h : lineKind line = none) (s : State D F) :
    dispatch c line s = { s with otherLines := s.otherLines + 1 } := by
  unfold lineKind at h
  unfold dispatch
  split_ifs at h ⊢ <;> rfl

/-- A line of a kind is parsed into the record, and sets the flag of its kind. -/
theorem dispatch_of_kind {line : List UInt8} {k : Kind} (h : lineKind line = some k)
    (s : State D F) :
    (dispatch c line s).gnss = (k.parse c line s.gnss).2 ∧
      ∀ k', (dispatch c line s).has k' = (s.has k' || k == k') := by
  unfold lineKind at h
  split_ifs at h with hgga hgst hheading <;> cases h
  · rw [dispatch_gga c hgga]
    exact ⟨rfl, fun k' => by cases k' <;> simp [State.has]⟩
  · rw [dispatch_gst c hgst hgga]
    exact ⟨rfl, fun k' => by cases k' <;> simp [State.has]⟩
  · rw [dispatch_heading c hheading]
    exact ⟨rfl, fun k' => by cases k' <;> simp [State.has]⟩

/-- The dispatcher leaves the assembly of lines alone. -/
theorem dispatch_frame (line : List UInt8) (s : State D F) :
    (dispatch c line s).line = s.line ∧ (dispatch c line s).linesTotal = s.linesTotal ∧
      (dispatch c line s).lineOverlong = s.lineOverlong := by
  unfold dispatch
  split_ifs <;> exact ⟨rfl, rfl, rfl⟩

/-! ### What one pass can do -/

theorem byteStep_cr (s : State D F) : byteStep c s 0x0D = (s, .nothing) := rfl

theorem byteStep_newline (s : State D F) : byteStep c s 0x0A = lineEnd c s := rfl

theorem byteStep_append {s : State D F} {b : UInt8} (hcr : b ≠ 0x0D) (hnl : b ≠ 0x0A)
    (h : s.line.bytes.length < 219) :
    byteStep c s b =
      ({ s with line := ⟨s.line.bytes ++ [b], by rwa [List.length_append]⟩ }, .nothing) := by
  rw [byteStep, if_neg hcr, if_neg hnl, dif_pos h]

theorem byteStep_overlong {s : State D F} {b : UInt8} (hcr : b ≠ 0x0D) (hnl : b ≠ 0x0A)
    (h : ¬ s.line.bytes.length < 219) :
    byteStep c s b = ({ s with
      lineOverlong := s.lineOverlong + 1, line := {}, hasGga := false, hasGst := false,
      hasHeading := false }, .overlong) := by
  rw [byteStep, if_neg hcr, if_neg hnl, dif_neg h]

omit [Floating D] [Floating F] in
theorem forall_has_iff (s : State D F) :
    (∀ k, s.has k) ↔ (s.hasGga && s.hasGst && s.hasHeading) = true := by
  rw [Bool.and_eq_true, Bool.and_eq_true]
  exact ⟨fun h => ⟨⟨h .gga, h .gst⟩, h .heading⟩, fun ⟨⟨hgga, hgst⟩, hheading⟩ k => by
    cases k <;> assumption⟩

/-- Inside a line nothing is dispatched or counted. -/
theorem byteStep_inside {b : UInt8} (hnl : b ≠ 0x0A) (s : State D F) :
    (byteStep c s b).2.line? = none ∧ (byteStep c s b).1.linesTotal = s.linesTotal := by
  rw [byteStep, if_neg hnl]
  split_ifs <;> exact ⟨rfl, rfl⟩

/-- The end of a line dispatches the bytes collected, and starts a new line. -/
theorem lineEnd_frame (s : State D F) :
    (lineEnd c s).2.line? = some s.line.bytes ∧ (lineEnd c s).1.line.bytes = [] ∧
      (lineEnd c s).1.linesTotal = s.linesTotal + 1 := by
  obtain ⟨hline, htotal, -⟩ := dispatch_frame c s.line.bytes s.countLine
  rw [lineEnd, pushIfComplete]
  split_ifs
  · exact ⟨rfl, congrArg LineBuf.bytes hline, htotal⟩
  · exact ⟨rfl, congrArg LineBuf.bytes hline, htotal⟩

end PicoUros.Gnss
