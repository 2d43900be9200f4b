import PicoUros.Gnss.Framing
import PicoUros.Gnss.Window
import Mathlib.Tactic.SplitIfs

/-!
# The array of the line assembler

The loop of core 1 writes the bytes of a line into `char line[220]` at `idx` and ends the line with
a NUL there (`src/main.cpp`, lines 808–897). The array is never cleared, so behind this NUL it holds
what longer lines have left, and a line may contain NUL bytes of its own. The dispatcher and the
parsers see the C string at the start of the array, each with its own tests.

A write outside of the array has no result here. The loop over the array simulates the loop over the
collected bytes, `byteStep`.

## Main definitions

* `Memory`, `Memory.byteStep`, `Memory.run`: the variables of the loop, one pass, and passes over a
  list of bytes.
* `Memory.selected`: the parser that the dispatcher selects.
* `Simulates`: the array holds the collected bytes, and the other variables agree.
* `AssemblerInv`: the invariant of the loop.

## Main results

* `simulates_byteStep`, `simulates_run`: no write is outside of the array, and the passes do the
  same.
* `overlong_iff`: when a pass discards the line.
* `assembler_inv`: the invariant holds in front of every pass.
-/

namespace PicoUros.Gnss

variable {D F : Type} [Floating D] [Floating F] (c : Libc D F)

/-! ### The loop -/

structure Memory (D F : Type) where
  line : Vector UInt8 220
  idx : ℤ := 0
  gnss : GnssT D F
  /-- `cycle_has_gga`. -/
  hasGga : Bool := false
  /-- `cycle_has_gst`. -/
  hasGst : Bool := false
  /-- `cycle_has_heading`. -/
  hasHeading : Bool := false
  linesTotal : UInt32 := 0
  ggaLines : UInt32 := 0
  gstLines : UInt32 := 0
  headingLines : UInt32 := 0
  otherLines : UInt32 := 0
  lineOverlong : UInt32 := 0
  maxLineLen : ℤ := 0

namespace Memory

/-- The variables when the loop starts. The array is not initialized. -/
def start (line : Vector UInt8 220) : Memory D F := { line, gnss := .zero }

/-- `line[i] = b;`. -/
def store (m : Memory D F) (i : ℤ) (b : UInt8) : Option (Memory D F) :=
  if h : 0 ≤ i ∧ i < 220 then some { m with line := m.line.set i.toNat b (by omega) } else none

/-- The parser that the tests of the dispatcher select. -/
def selected (m : Memory D F) : Option Kind :=
  let line := m.line.toList
  if m.line[0] = 0x24 then
    if strncmpEq line (bytes "$GNGGA,") 7 || strncmpEq line (bytes "$GPGGA,") 7 then some .gga
    else if strncmpEq line (bytes "$GNGST,") 7 || strncmpEq line (bytes "$GPGST,") 7 then
      some .gst
    else none
  else if m.line[0] = 0x23 then
    if strncmpEq line (bytes "#UNIHEADINGA,") 12 || strncmpEq line (bytes "#HEADINGA,") 9 then
      some .heading
    else none
  else none

/-- The dispatcher. -/
def dispatch (m : Memory D F) : Memory D F :=
  let line := m.line.toList
  match m.selected with
  | some .gga =>
    let (ok, gnss) := parseGgaLine c line m.gnss
    { m with ggaLines := m.ggaLines + 1, gnss, hasGga := if ok then true else m.hasGga }
  | some .gst =>
    let (ok, gnss) := parseGstLine c line m.gnss
    { m with gstLines := m.gstLines + 1, gnss, hasGst := if ok then true else m.hasGst }
  | some .heading =>
    let (ok, gnss) := parseHeadinggaLine c line m.gnss
    { m with
      headingLines := m.headingLines + 1, gnss, hasHeading := if ok then true else m.hasHeading }
  | none => { m with otherLines := m.otherLines + 1 }

/-- The bytes `line[0..idx)`. -/
def collected (m : Memory D F) : List UInt8 := m.line.toList.take m.idx.toNat

/-- Count the line, and set `idx` to `0`. -/
def countLine (m : Memory D F) : Memory D F :=
  { m with
    linesTotal := m.linesTotal + 1
    maxLineLen := if m.idx > m.maxLineLen then m.idx else m.maxLineLen
    idx := 0 }

/-- Push the record if all three flags are set, after the line `l` was dispatched. -/
def pushIfComplete (l : List UInt8) (m : Memory D F) : Memory D F × Out D F :=
  if m.hasGga && m.hasGst && m.hasHeading then
    ({ m with hasGga := false, hasGst := false, hasHeading := false }, .line l (some m.gnss))
  else (m, .line l none)

/-- One pass of the loop. -/
def byteStep (m : Memory D F) (b : UInt8) : Option (Memory D F × Out D F) :=
  if b = 0x0D then some (m, .nothing)
  else if b = 0x0A then
    (m.store m.idx 0).map fun m => pushIfComplete m.collected (m.countLine.dispatch c)
  else if m.idx < 220 - 1 then
    (m.store m.idx b).map fun m => ({ m with idx := m.idx + 1 }, .nothing)
  else
    some
      ({ m with
        lineOverlong := m.lineOverlong + 1, idx := 0, hasGga := false, hasGst := false,
        hasHeading := false }, .overlong)

/-- Passes for a list of bytes, with their outcomes. -/
def run (m : Memory D F) : List UInt8 → Option (Memory D F × List (Out D F))
  | [] => some (m, [])
  | b :: bs =>
    (m.byteStep c b).bind fun p => (run p.1 bs).map fun q => (q.1, p.2 :: q.2)

end Memory

/-! ### C strings in the array -/

/-- A NUL ends the string whatever the array holds behind it. -/
theorem cstr_append_nul (s t : List UInt8) : cstr (s ++ 0 :: t) = cstr s := by
  rw [cstr, List.takeWhile_append, cstr]
  split_ifs with h
  · rw [List.takeWhile_cons_of_neg (by decide), List.append_nil]
    exact ((List.takeWhile_prefix _).eq_of_length h).symm
  · rfl

theorem strncmpEq_congr {s s' : List UInt8} (h : cstr s = cstr s') (t : List UInt8) (n : ℕ) :
    strncmpEq s t n = strncmpEq s' t n := by
  rw [strncmpEq, h, strncmpEq]

theorem isGga_congr {s s' : List UInt8} (h : cstr s = cstr s') : isGga s = isGga s' := by
  simp only [isGga, strncmpEq_congr h]

theorem isGst_congr {s s' : List UInt8} (h : cstr s = cstr s') : isGst s = isGst s' := by
  simp only [isGst, strncmpEq_congr h]

theorem isHeading_congr {s s' : List UInt8} (h : cstr s = cstr s') :
    isHeading s = isHeading s' := by
  simp only [isHeading, strncmpEq_congr h]

theorem lineKind_congr {s s' : List UInt8} (h : cstr s = cstr s') : lineKind s = lineKind s' := by
  simp only [lineKind, isGga_congr h, isGst_congr h, isHeading_congr h]

/-- The parsers see nothing of the array but the C string. -/
theorem Kind.parse_congr (k : Kind) {s s' : List UInt8} (h : cstr s = cstr s') (r : GnssT D F) :
    k.parse c s r = k.parse c s' r := by
  cases k with
  | gga => simp only [Kind.parse, parseGgaLine, isGga_congr h, ggaBuf, strncpy, h]
  | gst => simp only [Kind.parse, parseGstLine, isGst_congr h, gstBuf, strncpy, h]
  | heading =>
    simp only [Kind.parse, parseHeadinggaLine, isHeading_congr h, headingBuf, strchr, h]

omit [Floating D] [Floating F] in
/-- The tests of the dispatcher select the kind of the line. -/
theorem Memory.selected_eq (m : Memory D F) : m.selected = lineKind m.line.toList := by
  have hhead : m.line[0] = m.line.toList.headD 0 := by
    have hget : m.line.toList[0]? = some m.line[0] := by simp
    rw [List.headD_eq_head?_getD, List.head?_eq_getElem?, hget]
    rfl
  have hgst : (strncmpEq m.line.toList (bytes "$GNGST,") 7 ||
      strncmpEq m.line.toList (bytes "$GPGST,") 7) = isGst m.line.toList := Bool.or_comm _ _
  have hselected : m.selected =
      if m.line.toList.headD 0 = 0x24 then
        if isGga m.line.toList then some .gga
        else if isGst m.line.toList then some .gst else none
      else if m.line.toList.headD 0 = 0x23 then
        if isHeading m.line.toList then some .heading else none
      else none := by
    unfold Memory.selected
    simp only [hhead, hgst]
    rfl
  rw [hselected]
  by_cases hgga : isGga m.line.toList
  · rw [if_pos (headD_of_isGga hgga), if_pos hgga, lineKind, if_pos hgga]
  · by_cases hgst : isGst m.line.toList
    · rw [if_pos (headD_of_isGst hgst), if_neg hgga, if_pos hgst, lineKind, if_neg hgga,
        if_pos hgst]
    · by_cases hheading : isHeading m.line.toList
      · have hne : m.line.toList.headD 0 ≠ 0x24 := by
          rw [headD_of_isHeading hheading]
          decide
        rw [if_neg hne, if_pos (headD_of_isHeading hheading), if_pos hheading, lineKind,
          if_neg hgga, if_neg hgst, if_pos hheading]
      · simp only [lineKind, hgga, hgst, hheading, Bool.false_eq_true, if_false, ite_self]

/-! ### The simulation -/

/-- The loop over the collected bytes, with the other variables of the loop over the array. -/
def Memory.state (m : Memory D F) (line : LineBuf) : State D F where
  line := line
  gnss := m.gnss
  hasGga := m.hasGga
  hasGst := m.hasGst
  hasHeading := m.hasHeading
  linesTotal := m.linesTotal
  ggaLines := m.ggaLines
  gstLines := m.gstLines
  headingLines := m.headingLines
  otherLines := m.otherLines
  lineOverlong := m.lineOverlong
  maxLineLen := m.maxLineLen.toNat

/-- The array holds the collected bytes up to `idx`, and the other variables agree. -/
structure Simulates (m : Memory D F) (s : State D F) : Prop where
  idx : m.idx = s.line.bytes.length
  line : m.collected = s.line.bytes
  maxLineLen : 0 ≤ m.maxLineLen
  state : m.state s.line = s

variable {m : Memory D F} {s : State D F}

omit [Floating D] [Floating F] in
theorem Simulates.idx_bounds (h : Simulates m s) : 0 ≤ m.idx ∧ m.idx ≤ 219 := by
  have hlen := s.line.length_le
  rw [h.idx]
  omega

omit [Floating D] [Floating F] in
/-- The two loops agree apart from the line. -/
theorem Simulates.state_eq (h : Simulates m s) (l : LineBuf) :
    m.state l = { s with line := l } := by
  calc m.state l = { m.state s.line with line := l } := rfl
    _ = { s with line := l } := by rw [h.state]

theorem simulates_start (line : Vector UInt8 220) :
    Simulates (.start line : Memory D F) .init where
  idx := rfl
  line := List.take_zero
  maxLineLen := le_rfl
  state := rfl

omit [Floating D] [Floating F] in
/-- A write at `idx` succeeds. -/
theorem Simulates.store_eq (h : Simulates m s) (b : UInt8) : m.store m.idx b = some
    { m with line := m.line.set m.idx.toNat b (by have hidx := h.idx_bounds; omega) } := by
  have hidx := h.idx_bounds
  rw [Memory.store, dif_pos ⟨hidx.1, by omega⟩]

/-- After the final NUL the array holds the collected bytes as a C string. -/
theorem cstr_set_nul (line : Vector UInt8 220) {i : ℕ} (hi : i < 220) :
    cstr (line.set i 0).toList = cstr (line.toList.take i) ∧
      (line.set i 0).toList.take i = line.toList.take i := by
  have hlen : i < line.toList.length := by simpa using hi
  rw [Vector.toList_set, List.set_eq_take_append_cons_drop, if_pos hlen]
  refine ⟨cstr_append_nul _ _, ?_⟩
  rw [List.take_append_of_le_length (by rw [List.length_take]; omega), List.take_take,
    Nat.min_self]

/-- The dispatcher does the same for the array as for the collected bytes. -/
theorem state_dispatch (m : Memory D F) {l : LineBuf} {bs : List UInt8}
    (h : cstr m.line.toList = cstr bs) :
    (m.dispatch c).state l = Gnss.dispatch c bs (m.state l) := by
  have hkind : m.selected = lineKind bs := m.selected_eq.trans (lineKind_congr h)
  have hparse : ∀ k : Kind, k.test bs →
      k.parse c m.line.toList m.gnss = (true, (k.parse c bs m.gnss).2) := by
    intro k hk
    rw [k.parse_congr c h]
    exact Prod.ext ((k.parse_fst c bs m.gnss).trans hk) rfl
  rw [Memory.dispatch, hkind]
  by_cases hgga : isGga bs
  · have hk : lineKind bs = some .gga := if_pos hgga
    simp only [hk, dispatch_gga c hgga, show parseGgaLine c m.line.toList m.gnss = _ from
      hparse .gga hgga]
    rfl
  · by_cases hgst : isGst bs
    · have hk : lineKind bs = some .gst := by rw [lineKind, if_neg hgga, if_pos hgst]
      simp only [hk, dispatch_gst c hgst hgga, show parseGstLine c m.line.toList m.gnss = _ from
        hparse .gst hgst]
      rfl
    · by_cases hheading : isHeading bs
      · have hk : lineKind bs = some .heading := by
          rw [lineKind, if_neg hgga, if_neg hgst, if_pos hheading]
        simp only [hk, dispatch_heading c hheading,
          show parseHeadinggaLine c m.line.toList m.gnss = _ from hparse .heading hheading]
        rfl
      · have hk : lineKind bs = none := by
          rw [lineKind, if_neg hgga, if_neg hgst, if_neg hheading]
        simp only [hk, dispatch_of_other c hk]
        rfl

theorem dispatch_line_idx (m : Memory D F) :
    (m.dispatch c).line = m.line ∧ (m.dispatch c).idx = m.idx ∧
      (m.dispatch c).maxLineLen = m.maxLineLen := by
  unfold Memory.dispatch
  cases m.selected with
  | none => exact ⟨rfl, rfl, rfl⟩
  | some k => cases k <;> exact ⟨rfl, rfl, rfl⟩

omit [Floating D] [Floating F] in
theorem simulates_pushIfComplete (l : List UInt8) (h : Simulates m s) :
    Simulates (m.pushIfComplete l).1 (pushIfComplete l s).1 ∧
      (m.pushIfComplete l).2 = (pushIfComplete l s).2 := by
  have hflags : (s.hasGga && s.hasGst && s.hasHeading) =
      (m.hasGga && m.hasGst && m.hasHeading) := by
    rw [← h.state]
    rfl
  have hgnss : m.gnss = s.gnss := congrArg State.gnss h.state
  rw [Memory.pushIfComplete, pushIfComplete, hflags]
  split_ifs
  · refine ⟨⟨h.idx, h.line, h.maxLineLen, ?_⟩, congrArg (fun g => Out.line l (some g)) hgnss⟩
    conv_rhs => rw [← h.state]
    rfl
  · exact ⟨h, rfl⟩

/-- The end of a line does the same. -/
theorem simulates_lineEnd (h : Simulates m s) :
    ∃ m', m.byteStep c 0x0A = some (m', (lineEnd c s).2) ∧ Simulates m' (lineEnd c s).1 := by
  obtain ⟨hidx, hle⟩ := h.idx_bounds
  obtain ⟨u, hu⟩ : ∃ u : Memory D F, u = { m with
      line := m.line.set m.idx.toNat 0 (by omega) } := ⟨_, rfl⟩
  have hstore : m.store m.idx 0 = some u := by rw [h.store_eq, hu]
  obtain ⟨hcstr, htake⟩ := cstr_set_nul m.line (i := m.idx.toNat) (by omega)
  have hcollected : u.collected = s.line.bytes := by
    rw [Memory.collected, hu]
    exact htake.trans h.line
  have hcstr' : cstr u.countLine.line.toList = cstr s.line.bytes := by
    rw [← h.line, Memory.collected, ← hcstr, hu]
    rfl
  have hmax : 0 ≤ u.countLine.maxLineLen ∧
      u.countLine.maxLineLen.toNat = max m.maxLineLen.toNat s.line.bytes.length := by
    have hm := h.maxLineLen
    have hlen := h.idx
    simp only [Memory.countLine, hu]
    split_ifs <;> omega
  have hcount : u.countLine.state {} = s.countLine := by
    rw [show s.countLine = (m.state s.line).countLine by rw [h.state]]
    simp only [Memory.state, State.countLine, hmax.2]
    rw [hu]
    rfl
  obtain ⟨hvline, hvidx, hvmax⟩ := dispatch_line_idx c u.countLine
  obtain ⟨v, hv⟩ : ∃ v, v = u.countLine.dispatch c := ⟨_, rfl⟩
  rw [← hv] at hvline hvidx hvmax
  have hend : lineEnd c s = pushIfComplete s.line.bytes (v.state {}) := by
    rw [lineEnd, ← hcount, hv, state_dispatch c u.countLine hcstr']
  have hsim : Simulates v (v.state {}) :=
    { idx := hvidx
      line := by
        rw [Memory.collected, hvidx]
        exact List.take_zero
      maxLineLen := hvmax ▸ hmax.1
      state := rfl }
  have hbyte : m.byteStep c 0x0A = some (Memory.pushIfComplete s.line.bytes v) := by
    rw [← hcollected, hv, Memory.byteStep, if_neg (by decide), if_pos rfl, hstore]
    rfl
  obtain ⟨hpush, hout⟩ := simulates_pushIfComplete s.line.bytes hsim
  rw [hbyte, hend, ← hout]
  exact ⟨_, rfl, hpush⟩

/-- A byte behind the collected ones. -/
theorem take_set_succ (line : Vector UInt8 220) {i : ℕ} (hi : i < 220) (b : UInt8) :
    (line.set i b).toList.take (i + 1) = line.toList.take i ++ [b] := by
  have hlen : i < line.toList.length := by simpa using hi
  rw [Vector.toList_set, List.set_eq_take_append_cons_drop, if_pos hlen, List.take_append,
    List.length_take, Nat.min_eq_left hlen.le, List.take_take]
  simp

/-- **One pass.** No write is outside of the array, and the pass does the same as for the collected
bytes. -/
theorem simulates_byteStep (h : Simulates m s) (b : UInt8) :
    ∃ m', m.byteStep c b = some (m', (byteStep c s b).2) ∧ Simulates m' (byteStep c s b).1 := by
  obtain ⟨hidx, hle⟩ := h.idx_bounds
  have hlen := h.idx
  by_cases hcr : b = 0x0D
  · subst hcr
    exact ⟨m, rfl, h⟩
  · by_cases hnl : b = 0x0A
    · subst hnl
      exact simulates_lineEnd c h
    · rw [Memory.byteStep, if_neg hcr, if_neg hnl]
      by_cases hroom : s.line.bytes.length < 219
      · rw [byteStep_append c hcr hnl hroom, if_pos (by omega), h.store_eq]
        refine ⟨_, rfl, ?_, ?_, h.maxLineLen, ?_⟩
        · simp only [List.length_append, List.length_singleton]
          omega
        · have htake := take_set_succ m.line (i := m.idx.toNat) (by omega) b
          rw [Memory.collected]
          simp only
          rw [show (m.idx + 1).toNat = m.idx.toNat + 1 by omega, htake]
          exact congrArg (· ++ [b]) h.line
        · exact h.state_eq _
      · rw [byteStep_overlong c hcr hnl hroom, if_neg (by omega)]
        refine ⟨_, rfl, rfl, List.take_zero, h.maxLineLen, ?_⟩
        conv_rhs => rw [← h.state]
        rfl

theorem simulates_run (h : Simulates m s) (bs : List UInt8) :
    ∃ m', m.run c bs = some (m', outs c s bs) ∧ Simulates m' (feed c s bs) := by
  induction bs generalizing m s with
  | nil => exact ⟨m, rfl, h⟩
  | cons b bs ih =>
    obtain ⟨u, hu, hsim⟩ := simulates_byteStep c h b
    obtain ⟨m', hm', hsim'⟩ := ih hsim
    refine ⟨m', ?_, hsim'⟩
    rw [Memory.run, hu, Option.bind_some, hm']
    rfl

/-! ### The invariant -/

/-- The number of lines of all kinds. -/
def State.kinds (s : State D F) : UInt32 :=
  s.ggaLines + s.gstLines + s.headingLines + s.otherLines

/-- Every line is counted once, by the dispatcher. -/
theorem kinds_dispatch (line : List UInt8) (s : State D F) :
    (dispatch c line s).kinds = s.kinds + 1 ∧ (dispatch c line s).maxLineLen = s.maxLineLen := by
  cases hk : lineKind line with
  | none =>
    rw [dispatch_of_other c hk]
    refine ⟨?_, rfl⟩
    simp only [State.kinds]
    ac_rfl
  | some k =>
    unfold lineKind at hk
    split_ifs at hk with hgga hgst hheading
    · rw [dispatch_gga c hgga]
      refine ⟨?_, rfl⟩
      simp only [State.kinds]
      ac_rfl
    · rw [dispatch_gst c hgst hgga]
      refine ⟨?_, rfl⟩
      simp only [State.kinds]
      ac_rfl
    · rw [dispatch_heading c hheading]
      refine ⟨?_, rfl⟩
      simp only [State.kinds]
      ac_rfl

theorem kinds_lineEnd (s : State D F) :
    (lineEnd c s).1.kinds = s.kinds + 1 ∧
      (lineEnd c s).1.maxLineLen = max s.maxLineLen s.line.bytes.length := by
  obtain ⟨hkinds, hmax⟩ := kinds_dispatch c s.line.bytes s.countLine
  rw [lineEnd, pushIfComplete]
  split_ifs <;> exact ⟨hkinds, hmax⟩

/-- The counters of the loop after the bytes `bs`. -/
structure Counted (bs : List UInt8) (s : State D F) : Prop where
  kinds : s.linesTotal = s.kinds
  total : s.linesTotal = .ofNat (bs.count 0x0A)
  maxLineLen_le : s.maxLineLen ≤ 219

theorem counted_feed (bs : List UInt8) : Counted bs (feed c .init bs) := by
  induction bs using List.reverseRecOn with
  | nil => exact ⟨rfl, rfl, Nat.zero_le _⟩
  | append_singleton bs b ih =>
    rw [feed_concat]
    by_cases hnl : b = 0x0A
    · subst hnl
      obtain ⟨hkinds, hmax⟩ := kinds_lineEnd c (feed c .init bs)
      obtain ⟨-, -, htotal⟩ := lineEnd_frame c (feed c .init bs)
      rw [byteStep_newline]
      refine ⟨by rw [htotal, hkinds, ih.kinds], ?_, ?_⟩
      · rw [htotal, ih.total, List.count_append, List.count_singleton_self]
        exact (UInt32.ofNat_add _ _).symm
      · rw [hmax]
        exact max_le ih.maxLineLen_le (LineBuf.length_le _)
    · have hcount : (bs ++ [b]).count 0x0A = bs.count 0x0A := by
        rw [List.count_append, List.count_singleton, if_neg (by simpa using hnl), Nat.add_zero]
      rw [byteStep, if_neg hnl]
      split_ifs
      all_goals exact ⟨ih.kinds, hcount ▸ ih.total, ih.maxLineLen_le⟩

/-- The bytes from position `k` on were popped since the last newline or overlong discard. -/
structure StartsAt (bs : List UInt8) (os : List (Out D F)) (k : ℕ) : Prop where
  le : k ≤ bs.length
  reset : k = 0 ∨ bs[k - 1]? = some 0x0A ∨ os[k - 1]? = some .overlong
  inside : ∀ i, k ≤ i → bs[i]? ≠ some 0x0A ∧ os[i]? ≠ some .overlong

theorem length_outs (s : State D F) (bs : List UInt8) : (outs c s bs).length = bs.length := by
  induction bs generalizing s with
  | nil => rfl
  | cons b bs ih => exact congrArg (· + 1) (ih _)

omit [Floating D] [Floating F] in
theorem startsAt_nil : StartsAt ([] : List UInt8) ([] : List (Out D F)) 0 where
  le := le_rfl
  reset := .inl rfl
  inside _ _ := ⟨by simp, by simp⟩

theorem getElem?_concat_length {α : Type} (l : List α) (a : α) :
    (l ++ [a])[l.length]? = some a := by
  simp

omit [Floating D] [Floating F] in
/-- A newline or an overlong discard starts again behind it. -/
theorem startsAt_reset {bs : List UInt8} {os : List (Out D F)} {b : UInt8} {o : Out D F}
    (hlen : os.length = bs.length) (h : b = 0x0A ∨ o = .overlong) :
    StartsAt (bs ++ [b]) (os ++ [o]) (bs.length + 1) where
  le := by simp
  reset := by
    rw [Nat.add_sub_cancel, getElem?_concat_length, ← hlen, getElem?_concat_length]
    exact .inr (h.imp (congrArg some) (congrArg some))
  inside i hi := by
    rw [List.getElem?_eq_none (by simpa using hi), List.getElem?_eq_none (by simpa [hlen] using hi)]
    exact ⟨nofun, nofun⟩

omit [Floating D] [Floating F] in
/-- Any other byte goes on from where the line starts. -/
theorem StartsAt.concat {bs : List UInt8} {os : List (Out D F)} {k : ℕ} (h : StartsAt bs os k)
    (hlen : os.length = bs.length) {b : UInt8} {o : Out D F} (hb : b ≠ 0x0A) (ho : o ≠ .overlong) :
    StartsAt (bs ++ [b]) (os ++ [o]) k where
  le := by
    have hle := h.le
    simp only [List.length_append, List.length_singleton]
    omega
  reset := by
    have hle := h.le
    rcases Nat.eq_zero_or_pos k with hk | hk
    · exact .inl hk
    · rw [List.getElem?_append_left (by omega), List.getElem?_append_left (by omega)]
      exact h.reset
  inside i hi := by
    obtain ⟨hbs, hos⟩ := h.inside i hi
    rcases Nat.lt_trichotomy i bs.length with hlt | rfl | hgt
    · rw [List.getElem?_append_left hlt, List.getElem?_append_left (by omega)]
      exact ⟨hbs, hos⟩
    · rw [getElem?_concat_length, ← hlen, getElem?_concat_length]
      exact ⟨by simpa using hb, by simpa using ho⟩
    · rw [List.getElem?_eq_none (by simp; omega), List.getElem?_eq_none (by simp; omega)]
      exact ⟨(Option.some_ne_none _).symm, (Option.some_ne_none _).symm⟩

/-- The collected bytes are those since the last newline or overlong discard. -/
theorem exists_startsAt (bs : List UInt8) :
    ∃ k, StartsAt bs (outs c .init bs) k ∧ (feed c .init bs).line.bytes = dropCr (bs.drop k) := by
  induction bs using List.reverseRecOn with
  | nil => exact ⟨0, startsAt_nil, rfl⟩
  | append_singleton bs b ih =>
    obtain ⟨k, hk, hline⟩ := ih
    have hlen := length_outs c .init bs
    have hdrop : (bs ++ [b]).drop (bs.length + 1) = [] :=
      List.drop_eq_nil_of_le (by simp)
    have hdropk : dropCr ((bs ++ [b]).drop k) = dropCr (bs.drop k) ++ dropCr [b] := by
      rw [List.drop_append_of_le_length hk.le]
      exact List.filter_append ..
    rw [outs_concat, feed_concat]
    by_cases hnl : b = 0x0A
    · subst hnl
      refine ⟨bs.length + 1, startsAt_reset hlen (.inl rfl), ?_⟩
      rw [hdrop, byteStep_newline, (lineEnd_frame c _).2.1]
      rfl
    · by_cases hcr : b = 0x0D
      · subst hcr
        refine ⟨k, hk.concat hlen (by decide) (by rw [byteStep_cr]; nofun), ?_⟩
        rw [hdropk, byteStep_cr, hline]
        exact (List.append_nil _).symm
      · by_cases hroom : (feed c .init bs).line.bytes.length < 219
        · rw [byteStep_append c hcr hnl hroom]
          refine ⟨k, hk.concat hlen hnl nofun, ?_⟩
          rw [hdropk, show dropCr [b] = [b] by simp [dropCr, hcr], ← hline]
        · rw [byteStep_overlong c hcr hnl hroom]
          exact ⟨bs.length + 1, startsAt_reset hlen (.inr rfl), by rw [hdrop]; rfl⟩

omit [Floating D] [Floating F] in
theorem StartsAt.le_of_startsAt {bs : List UInt8} {os : List (Out D F)} {k k' : ℕ}
    (h : StartsAt bs os k) (h' : StartsAt bs os k') : k' ≤ k := by
  by_contra hlt
  obtain ⟨hbs, hos⟩ := h.inside (k' - 1) (by omega)
  rcases h'.reset with hzero | hnl | hoverlong
  · omega
  · exact hbs hnl
  · exact hos hoverlong

/-- **Overlong discards.** A pass discards the line exactly if 219 bytes were collected since the
last newline or discard and the byte popped is another one of the line. -/
theorem overlong_iff (bs : List UInt8) (b : UInt8) :
    (byteStep c (feed c .init bs) b).2 = .overlong ↔ b ≠ 0x0D ∧ b ≠ 0x0A ∧
      ∃ k, StartsAt bs (outs c .init bs) k ∧ (dropCr (bs.drop k)).length = 219 := by
  obtain ⟨k, hk, hline⟩ := exists_startsAt c bs
  have hfull : (∃ k', StartsAt bs (outs c .init bs) k' ∧ (dropCr (bs.drop k')).length = 219) ↔
      ¬ (feed c .init bs).line.bytes.length < 219 := by
    have hle := (feed c .init bs).line.length_le
    constructor
    · rintro ⟨k', hk', hlen⟩
      rw [hline, le_antisymm (hk'.le_of_startsAt hk) (hk.le_of_startsAt hk'), hlen]
      exact lt_irrefl 219
    · exact fun hroom => ⟨k, hk, by rw [← hline]; omega⟩
  rw [hfull]
  by_cases hcr : b = 0x0D
  · rw [hcr, byteStep_cr]
    exact iff_of_false nofun fun h => h.1 rfl
  by_cases hnl : b = 0x0A
  · obtain ⟨hout, -, -⟩ := lineEnd_frame c (feed c .init bs)
    rw [hnl, byteStep_newline]
    refine iff_of_false (fun h => ?_) fun h => h.2.1 rfl
    rw [h] at hout
    cases hout
  by_cases hroom : (feed c .init bs).line.bytes.length < 219
  · rw [byteStep_append c hcr hnl hroom]
    exact iff_of_false nofun fun h => h.2.2 hroom
  · rw [byteStep_overlong c hcr hnl hroom]
    exact iff_of_true rfl ⟨hcr, hnl, hroom⟩

/-- The flag of a kind. -/
def Memory.has (m : Memory D F) : Kind → Bool
  | .gga => m.hasGga
  | .gst => m.hasGst
  | .heading => m.hasHeading

/-- The invariant in front of a pass, after the bytes `bs` with the outcomes `os`. -/
structure AssemblerInv (bs : List UInt8) (os : List (Out D F)) (m : Memory D F) : Prop where
  idx : 0 ≤ m.idx ∧ m.idx ≤ 219
  /-- `line[0..idx)` is what was popped since the last newline or overlong discard. -/
  line : ∃ k, StartsAt bs os k ∧ m.collected = dropCr (bs.drop k)
  kinds : m.linesTotal = m.ggaLines + m.gstLines + m.headingLines + m.otherLines
  total : m.linesTotal.toNat = bs.count 0x0A % 2 ^ 32
  maxLineLen : m.maxLineLen ≤ 219
  /-- When the line is ended here, the parser that the dispatcher selects recognises it. -/
  selected : ∀ m', m.store m.idx 0 = some m' → ∀ k, m'.selected = some k →
    (k.parse c m'.line.toList m'.gnss).1 = true
  /-- A flag is set if a line of its kind was dispatched since the flags were reset. -/
  has : ∀ k, m.has k ↔ HasKind (window os) k

/-- **The line assembler.** Whatever the array holds at first and whatever bytes are popped, every
write is inside the array, and the invariant holds. -/
theorem assembler_inv (line : Vector UInt8 220) (bs : List UInt8) :
    ∃ m os, (Memory.start line : Memory D F).run c bs = some (m, os) ∧ AssemblerInv c bs os m := by
  obtain ⟨m, hrun, hsim⟩ := simulates_run c (simulates_start line) bs
  refine ⟨m, _, hrun, ?_⟩
  have hstate := hsim.state
  have hcounted := counted_feed c bs
  obtain ⟨k, hk, hline⟩ := exists_startsAt c bs
  have htotal : m.linesTotal = (feed c .init bs).linesTotal := congrArg State.linesTotal hstate
  exact
    { idx := hsim.idx_bounds
      line := ⟨k, hk, hsim.line.trans hline⟩
      kinds := by
        rw [htotal, hcounted.kinds, ← hstate]
        rfl
      total := by
        rw [htotal, hcounted.total]
        exact UInt32.toNat_ofNat'
      maxLineLen := by
        have hle := hcounted.maxLineLen_le
        have hmax : m.maxLineLen.toNat = (feed c .init bs).maxLineLen :=
          congrArg State.maxLineLen hstate
        omega
      selected := fun m' _ k hk => by
        rw [k.parse_fst]
        exact Kind.test_of_lineKind (m'.selected_eq.symm.trans hk)
      has := fun k => by
        rw [← (tracks_feed c bs).has k, ← hstate]
        cases k <;> rfl }

end PicoUros.Gnss
