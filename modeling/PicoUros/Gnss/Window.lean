import PicoUros.Gnss.Core1
import Mathlib.Data.List.Induction

/-!
# The window of a record

The record of core 1 is never cleared: each parser sets its own part, and the three flags say which
parts were set since the last push or the last overlong line. The window is the list of the lines
dispatched since then. This file shows that the flags say which kinds the window contains, and that
the part of each such kind comes from the last line of this kind in the window.

## Main definitions

* `window`: the lines dispatched since the last push or overlong line.
* `lastOf`: the last line of a kind.

## Main results

* `Tracks`, `tracks_feed`: the invariant that connects the window with the flags and the record.
* `freshPass`: a record is pushed when the window has all three kinds, and its parts come from the
  last lines of the window.
-/

namespace PicoUros.Gnss

variable {D F : Type} [Floating D] [Floating F] (c : Libc D F)

/-! ### The window -/

/-- The window after a pass of the loop. -/
def windowStep (w : List (List UInt8)) : Out D F → List (List UInt8)
  | .nothing => w
  | .line l none => w ++ [l]
  | .line _ (some _) => []
  | .overlong => []

/-- The lines dispatched since the last push or overlong line. -/
def window (os : List (Out D F)) : List (List UInt8) := os.foldl windowStep []

/-- The last line of a kind. -/
def lastOf (k : Kind) (w : List (List UInt8)) : Option (List UInt8) :=
  (w.filter fun l => lineKind l = some k).getLast?

/-- There is a line of the kind. -/
def HasKind (w : List (List UInt8)) (k : Kind) : Prop := ∃ l ∈ w, lineKind l = some k

omit [Floating D] [Floating F] in
@[simp] theorem window_concat (os : List (Out D F)) (o : Out D F) :
    window (os ++ [o]) = windowStep (window os) o := by
  rw [window, List.foldl_append]
  rfl

theorem lastOf_concat (k : Kind) (w : List (List UInt8)) (l : List UInt8) :
    lastOf k (w ++ [l]) = if lineKind l = some k then some l else lastOf k w := by
  rw [lastOf, List.filter_append]
  by_cases h : lineKind l = some k <;> simp [h, lastOf]

theorem lastOf_eq_none {k : Kind} {w : List (List UInt8)} : lastOf k w = none ↔ ¬ HasKind w k := by
  simp [lastOf, HasKind]

theorem hasKind_concat {w : List (List UInt8)} {l : List UInt8} {k : Kind} :
    HasKind (w ++ [l]) k ↔ HasKind w k ∨ lineKind l = some k := by
  simp [HasKind, or_and_right, exists_or]

theorem not_hasKind_nil (k : Kind) : ¬ HasKind [] k := fun ⟨_, h, _⟩ => nomatch h

/-- The flags say which kinds the window contains, and the part of each such kind was set by the
last line of this kind. -/
structure Tracks (s : State D F) (w : List (List UInt8)) : Prop where
  has : ∀ k, s.has k ↔ HasKind w k
  same : ∀ k l, lastOf k w = some l → ∀ r, k.Same s.gnss (k.parse c l r).2

/-- Nothing is tracked when the flags are reset. -/
theorem tracks_nil {s : State D F} (h : ∀ k, s.has k = false) : Tracks c s [] where
  has k := by simp [h k, not_hasKind_nil]
  same _ _ hl := by cases hl

theorem tracks_dispatch {s : State D F} {w : List (List UInt8)} (h : Tracks c s w)
    (l : List UInt8) : Tracks c (dispatch c l s) (w ++ [l]) := by
  cases hk : lineKind l with
  | none =>
    rw [dispatch_of_other c hk]
    refine ⟨fun k => ?_, fun k l' hl' => ?_⟩
    · rw [hasKind_concat, hk]
      exact (h.has k).trans ⟨Or.inl, fun h => h.resolve_right (by simp)⟩
    · rw [lastOf_concat, hk, if_neg (by simp)] at hl'
      exact h.same k l' hl'
  | some k =>
    obtain ⟨hgnss, hhas⟩ := dispatch_of_kind c hk s
    refine ⟨fun k' => ?_, fun k' l' hl' r => ?_⟩
    · rw [hhas, hasKind_concat, hk, Bool.or_eq_true, h.has k', beq_iff_eq, Option.some.injEq]
    · rw [hgnss]
      rw [lastOf_concat, hk] at hl'
      by_cases hkk : k = k'
      · subst hkk
        rw [if_pos rfl] at hl'
        cases hl'
        exact k.parse_same c l _ _
      · rw [if_neg (by simpa using hkk)] at hl'
        exact (Kind.parse_frame c hkk l s.gnss).trans (h.same k' l' hl' r)

/-- What the end of a line does, in terms of the window. -/
theorem tracks_lineEnd {s : State D F} {w : List (List UInt8)} (h : Tracks c s w) :
    Tracks c (lineEnd c s).1 (windowStep w (lineEnd c s).2) ∧
      ((lineEnd c s).2.pushed.isSome ↔ ∀ k, HasKind (w ++ [s.line.bytes]) k) ∧
      ∀ r, (lineEnd c s).2.pushed = some r →
        ∀ k l, lastOf k (w ++ [s.line.bytes]) = some l → ∀ r', k.Same r (k.parse c l r').2 := by
  have hcount : Tracks c s.countLine w := ⟨h.has, h.same⟩
  have htracks := tracks_dispatch c hcount s.line.bytes
  have hall := forall_has_iff (dispatch c s.line.bytes s.countLine)
  rw [lineEnd, pushIfComplete]
  split_ifs with hflags
  · refine ⟨tracks_nil c fun k => by cases k <;> rfl, ?_, fun r hr k l hl r' => ?_⟩
    · simp only [Out.pushed, Option.isSome_some, true_iff]
      exact fun k => (htracks.has k).mp (hall.mpr hflags k)
    · cases hr
      exact htracks.same k l hl r'
  · refine ⟨htracks, ?_, fun r hr => (Option.some_ne_none r hr.symm).elim⟩
    simp only [Out.pushed, Option.isSome_none, Bool.false_eq_true, false_iff]
    exact fun hk => hflags (hall.mp fun k => (htracks.has k).mpr (hk k))

/-- The invariant holds whatever bytes the loop has taken. -/
theorem tracks_feed (bs : List UInt8) :
    Tracks c (feed c .init bs) (window (outs c .init bs)) := by
  induction bs using List.reverseRecOn with
  | nil => exact tracks_nil c fun k => by cases k <;> rfl
  | append_singleton bs b ih =>
    rw [feed_concat, outs_concat, window_concat]
    by_cases hcr : b = 0x0D
    · subst hcr
      exact ih
    · by_cases hnl : b = 0x0A
      · subst hnl
        exact (tracks_lineEnd c ih).1
      · by_cases hroom : (feed c .init bs).line.bytes.length < 219
        · rw [byteStep_append c hcr hnl hroom]
          exact ⟨ih.has, ih.same⟩
        · rw [byteStep_overlong c hcr hnl hroom]
          exact tracks_nil c fun k => by cases k <;> rfl

/-! ### What a pass pushes -/

/-- What the pass does that takes the byte `b` after the bytes `bs`. -/
def pass (bs : List UInt8) (b : UInt8) : Out D F := (byteStep c (feed c .init bs) b).2

/-- The window of this pass, with the line that it dispatches. -/
def windowAt (bs : List UInt8) (b : UInt8) : List (List UInt8) :=
  window (outs c .init bs) ++ (pass c bs b).line?.toList

/-- What a pushed record has to do with the lines in the window. -/
structure FreshPass (bs : List UInt8) (b : UInt8) : Prop where
  /-- A record is pushed at the newlines after which the window has all kinds. -/
  pushed_iff : (pass c bs b).pushed.isSome ↔ b = 0x0A ∧ ∀ k, HasKind (windowAt c bs b) k
  /-- The part of a kind is what the parser makes of the last line of the kind in the window,
  whatever the record held before. -/
  same : ∀ r, (pass c bs b).pushed = some r → ∀ k, ∃ l, lastOf k (windowAt c bs b) = some l ∧
    ∀ r', k.Same r (k.parse c l r').2

theorem freshPass (bs : List UInt8) (b : UInt8) : FreshPass c bs b := by
  by_cases hnl : b = 0x0A
  · subst hnl
    obtain ⟨-, hiff, hsame⟩ := tracks_lineEnd c (tracks_feed c bs)
    have hline : windowAt c bs 0x0A =
        window (outs c .init bs) ++ [(feed c .init bs).line.bytes] := by
      rw [windowAt, pass, byteStep_newline, (lineEnd_frame c _).1]
      rfl
    refine ⟨by rw [hline, pass, byteStep_newline, hiff]; simp, fun r hr k => ?_⟩
    rw [pass, byteStep_newline] at hr
    have hkind := hiff.mp (by rw [hr]; rfl) k
    rw [hline]
    cases hl : lastOf k (window (outs c .init bs) ++ [(feed c .init bs).line.bytes]) with
    | none => exact absurd hkind (lastOf_eq_none.mp hl)
    | some l => exact ⟨l, rfl, hsame r hr k l hl⟩
  · have hnone : (pass c bs b).pushed = none := by
      rw [pass, byteStep, if_neg hnl]
      split_ifs <;> rfl
    exact ⟨by simp [hnone, hnl], fun r hr => by rw [hnone] at hr; cases hr⟩

end PicoUros.Gnss
