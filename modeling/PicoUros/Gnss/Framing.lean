import PicoUros.Gnss.Core1
import PicoUros.Lib.Fields
import Mathlib.Data.List.Induction

/-!
# Framing of the popped bytes

The stream that core 1 pops is split at newlines, and carriage returns are dropped. What the loop
dispatches is compared with this splitting: a byte for which the buffer has no room makes the loop
forget the line collected so far, but not that it is in the middle of a line, so that the rest of an
overlong line is dispatched as a line of its own.

## Main definitions

* `completeRuns`, `openRun`: the runs of bytes between newlines, and the run behind the last one.
* `keptTail`: what the buffer holds of a run.
* `dispatched`: the lines that the loop dispatches.

## Main results

* `dispatched_eq`: the loop dispatches the kept tail of every run.
* `framing_iff`: it dispatches the runs of at most 219 bytes, and only these, if and only if there
  are no longer ones.
-/

namespace PicoUros.Gnss

variable {D F : Type} [Floating D] [Floating F] (c : Libc D F)

/-! ### The reference splitter -/

/-- A run without its carriage returns. -/
def dropCr (run : List UInt8) : List UInt8 := run.filter (· != 0x0D)

/-- The runs of bytes in front of the newlines of a stream, each from the newline before. -/
def completeRuns (bs : List UInt8) : List (List UInt8) :=
  (bs.splitOn 0x0A).dropLast.map dropCr

/-- The run behind the last newline. -/
def openRun (bs : List UInt8) : List UInt8 :=
  dropCr ((bs.splitOn 0x0A).getLast (List.splitOn_ne_nil _ _))

/-- What is left of a run in a buffer that is emptied by every 220th byte. -/
def keptTail (run : List UInt8) : List UInt8 := run.drop (220 * (run.length / 220))

/-- The lines dispatched while the loop takes the bytes of a stream. -/
def dispatched (bs : List UInt8) : List (List UInt8) :=
  (outs c .init bs).filterMap Out.line?

/-! ### Splitting a stream byte by byte -/

theorem splitOn_concat_newline (bs : List UInt8) :
    (bs ++ [0x0A]).splitOn 0x0A = bs.splitOn 0x0A ++ [[]] := by
  have hne := List.splitOn_ne_nil 0x0A bs
  have hnl : [0x0A].splitOn (0x0A : UInt8) = [] :: [[]] := rfl
  rw [splitOn_append (List.dropLast_concat_getLast hne).symm hnl, List.append_nil]
  conv_rhs => rw [← List.dropLast_concat_getLast hne, List.append_assoc]
  rfl

theorem splitOn_concat_of_ne (bs : List UInt8) {b : UInt8} (hb : b ≠ 0x0A) :
    (bs ++ [b]).splitOn 0x0A = (bs.splitOn 0x0A).dropLast ++
      [(bs.splitOn 0x0A).getLast (List.splitOn_ne_nil _ _) ++ [b]] := by
  have hne := List.splitOn_ne_nil 0x0A bs
  have hsingle : [b].splitOn (0x0A : UInt8) = [[b]] :=
    List.splitOn_eq_singleton (by simpa using hb.symm)
  exact splitOn_append (List.dropLast_concat_getLast hne).symm hsingle

theorem completeRuns_newline (bs : List UInt8) :
    completeRuns (bs ++ [0x0A]) = completeRuns bs ++ [openRun bs] := by
  have hne := List.splitOn_ne_nil 0x0A bs
  rw [completeRuns, splitOn_concat_newline, List.dropLast_concat, openRun]
  conv_lhs => rw [← List.dropLast_concat_getLast hne, List.map_append]
  rfl

theorem openRun_newline (bs : List UInt8) : openRun (bs ++ [0x0A]) = [] := by
  simp only [openRun, splitOn_concat_newline, List.getLast_concat]
  rfl

theorem completeRuns_of_ne (bs : List UInt8) {b : UInt8} (hb : b ≠ 0x0A) :
    completeRuns (bs ++ [b]) = completeRuns bs := by
  rw [completeRuns, splitOn_concat_of_ne bs hb, List.dropLast_concat, completeRuns]

theorem openRun_of_ne (bs : List UInt8) {b : UInt8} (hb : b ≠ 0x0A) :
    openRun (bs ++ [b]) = openRun bs ++ dropCr [b] := by
  simp only [openRun, splitOn_concat_of_ne bs hb, List.getLast_concat]
  exact List.filter_append ..

/-! ### What the loop dispatches -/

theorem length_keptTail (run : List UInt8) : (keptTail run).length = run.length % 220 := by
  rw [keptTail, List.length_drop]
  omega

theorem keptTail_of_le {run : List UInt8} (h : run.length ≤ 219) : keptTail run = run := by
  rw [keptTail, Nat.div_eq_of_lt (Nat.lt_succ_of_le h)]
  rfl

theorem keptTail_concat {run : List UInt8} {b : UInt8} (h : (keptTail run).length < 219) :
    keptTail (run ++ [b]) = keptTail run ++ [b] := by
  rw [length_keptTail] at h
  have hdiv : (run ++ [b]).length / 220 = run.length / 220 := by
    rw [List.length_append, List.length_singleton]
    omega
  rw [keptTail, hdiv, List.drop_append_of_le_length (by omega)]
  rfl

theorem keptTail_concat_full {run : List UInt8} {b : UInt8} (h : ¬ (keptTail run).length < 219) :
    keptTail (run ++ [b]) = [] := by
  rw [length_keptTail] at h
  refine List.drop_eq_nil_of_le ?_
  rw [List.length_append, List.length_singleton]
  omega

theorem dispatched_concat (bs : List UInt8) (b : UInt8) :
    dispatched c (bs ++ [b]) =
      dispatched c bs ++ (byteStep c (feed c .init bs) b).2.line?.toList := by
  rw [dispatched, outs_concat, List.filterMap_append, dispatched]
  cases h : (byteStep c (feed c .init bs) b).2.line? <;> simp [h]

/-- **What the loop dispatches.** The buffer holds the kept tail of the run that it is in, and the
lines dispatched are the kept tails of the complete runs. -/
theorem line_and_dispatched_eq (bs : List UInt8) :
    (feed c .init bs).line.bytes = keptTail (openRun bs) ∧
      dispatched c bs = (completeRuns bs).map keptTail ∧
      (feed c .init bs).linesTotal = .ofNat (dispatched c bs).length := by
  induction bs using List.reverseRecOn with
  | nil => exact ⟨rfl, rfl, rfl⟩
  | append_singleton bs b ih =>
    obtain ⟨hline, hlines, htotal⟩ := ih
    rw [dispatched_concat, feed_concat]
    by_cases hnl : b = 0x0A
    · subst hnl
      obtain ⟨hout, hempty, htot⟩ := lineEnd_frame c (feed c .init bs)
      rw [byteStep_newline, openRun_newline, completeRuns_newline, hempty, htot, htotal, hlines,
        hout, hline, List.map_append]
      refine ⟨rfl, rfl, ?_⟩
      rw [List.length_append]
      exact (UInt32.ofNat_add _ _).symm
    · obtain ⟨hout, htot⟩ := byteStep_inside c hnl (feed c .init bs)
      rw [completeRuns_of_ne bs hnl, openRun_of_ne bs hnl, hout, htot, Option.toList_none,
        List.append_nil]
      refine ⟨?_, hlines, htotal⟩
      by_cases hcr : b = 0x0D
      · subst hcr
        rw [byteStep_cr, show dropCr [0x0D] = [] from rfl, List.append_nil]
        exact hline
      · rw [show dropCr [b] = [b] by simp [dropCr, hcr]]
        by_cases hroom : (feed c .init bs).line.bytes.length < 219
        · rw [byteStep_append c hcr hnl hroom]
          rw [hline] at hroom
          rw [keptTail_concat hroom, ← hline]
        · rw [byteStep_overlong c hcr hnl hroom]
          rw [hline] at hroom
          exact (keptTail_concat_full hroom).symm

theorem dispatched_eq (bs : List UInt8) : dispatched c bs = (completeRuns bs).map keptTail :=
  (line_and_dispatched_eq c bs).2.1

/-- The loop dispatches the runs of at most 219 bytes, in order, and counts them, and it does not
dispatch or count anything else. -/
def FramesRuns (bs : List UInt8) : Prop :=
  dispatched c bs = (completeRuns bs).filter (·.length ≤ 219) ∧
    (feed c .init bs).linesTotal =
      .ofNat ((completeRuns bs).filter fun run => run.length ≤ 219).length

/-- **When the framing is right.** The lines dispatched are the runs of at most 219 bytes if and
only if no complete run is longer. -/
theorem framing_iff (bs : List UInt8) :
    FramesRuns c bs ↔ ∀ run ∈ completeRuns bs, run.length ≤ 219 := by
  constructor
  · rintro ⟨hlines, -⟩ run hrun
    -- There are as many lines as runs, so no run can be left out.
    have hlen : ((completeRuns bs).filter fun run => run.length ≤ 219).length =
        (completeRuns bs).length := by
      rw [← hlines, dispatched_eq, List.length_map]
    simpa using List.length_filter_eq_length_iff.mp hlen run hrun
  · intro h
    have hfilter : ((completeRuns bs).filter fun run => run.length ≤ 219) = completeRuns bs :=
      List.filter_eq_self.mpr fun run hrun => by simpa using h run hrun
    have hlines : dispatched c bs = completeRuns bs := by
      rw [dispatched_eq]
      exact (List.map_congr_left fun run hrun => keptTail_of_le (h run hrun)).trans (List.map_id _)
    refine ⟨by rw [hfilter, hlines], ?_⟩
    rw [hfilter, (line_and_dispatched_eq c bs).2.2, hlines]

/-- A line of 221 bytes, of which the loop dispatches the last byte. -/
def overlongLine : List UInt8 := List.replicate 221 0x41 ++ [0x0A]

theorem overlongLine_not_framed :
    dispatched Libc.exact overlongLine = [[0x41]] ∧ ¬ FramesRuns Libc.exact overlongLine := by
  have hlines : dispatched Libc.exact overlongLine = [[0x41]] := by decide +kernel
  have hruns : (completeRuns overlongLine).filter (·.length ≤ 219) = [] := by decide +kernel
  refine ⟨hlines, fun ⟨h, _⟩ => ?_⟩
  rw [hlines, hruns] at h
  cases h

end PicoUros.Gnss
