import PicoUros.Gnss.Framing
import PicoUros.Gnss.Ring

/-!
# Lines after an overflow of the ring

A byte that is received while the ring is full is dropped and counted, and nothing tells the loop
of core 1 that the stream it pops has a gap. Here the ring is put in front of the loop: the lines
dispatched are traced back to stretches of the received stream.

## Main definitions

* `Boundary`: a stream that is empty or ends with a newline.
* `received`: the bytes that the interrupt handler has received.
* `Stretch`: a part of the received stream from one accepted newline to the next.

## Main results

* `mem_completeRuns_iff`: where the complete runs of a stream are.
* `stretch_of_dispatched`: every line dispatched is what was accepted of one stretch, and a line of
  the received stream if the stretch has no gap.
* `glued_line`: a schedule in which the halves of two sentences are parsed as one.
-/

namespace PicoUros.Gnss

variable {D F : Type} [Floating D] [Floating F] (c : Libc D F)

/-! ### Where the complete runs of a stream are -/

/-- A stream that is empty or ends with a newline. -/
def Boundary (bs : List UInt8) : Prop := bs = [] ∨ ∃ as, bs = as ++ [0x0A]

theorem openRun_of_boundary {bs : List UInt8} (h : Boundary bs) : openRun bs = [] := by
  rcases h with rfl | ⟨as, rfl⟩
  · rfl
  · exact openRun_newline as

theorem openRun_append {as r : List UInt8} (h : Boundary as) (hr : 0x0A ∉ r) :
    openRun (as ++ r) = dropCr r := by
  induction r using List.reverseRecOn with
  | nil => rw [List.append_nil, openRun_of_boundary h]; rfl
  | append_singleton r b ih =>
    have hb : b ≠ 0x0A := fun hb => hr (by simp [hb])
    have hr' : (0x0A : UInt8) ∉ r := fun hmem => hr (by simp [hmem])
    rw [← List.append_assoc, openRun_of_ne _ hb, ih hr']
    exact (List.filter_append ..).symm

theorem completeRuns_isPrefix (as bs : List UInt8) :
    completeRuns as <+: completeRuns (as ++ bs) := by
  induction bs using List.reverseRecOn with
  | nil => exact (congrArg completeRuns (List.append_nil as)).symm ▸ List.prefix_refl _
  | append_singleton bs b ih =>
    rw [← List.append_assoc]
    by_cases hb : b = 0x0A
    · subst hb
      rw [completeRuns_newline]
      exact ih.trans (List.prefix_append _ _)
    · rwa [completeRuns_of_ne _ hb]

/-- The open run of a stream starts at a boundary. -/
theorem exists_openRun (bs : List UInt8) :
    ∃ as r, bs = as ++ r ∧ Boundary as ∧ 0x0A ∉ r ∧ openRun bs = dropCr r := by
  induction bs using List.reverseRecOn with
  | nil => exact ⟨[], [], rfl, .inl rfl, List.not_mem_nil, rfl⟩
  | append_singleton bs b ih =>
    by_cases hb : b = 0x0A
    · subst hb
      exact ⟨bs ++ [0x0A], [], (List.append_nil _).symm, .inr ⟨bs, rfl⟩, List.not_mem_nil,
        openRun_newline bs⟩
    · obtain ⟨as, r, rfl, has, hr, -⟩ := ih
      have hr' : (0x0A : UInt8) ∉ r ++ [b] := by simpa [hr] using Ne.symm hb
      exact ⟨as, r ++ [b], List.append_assoc .., has, hr', by
        rw [List.append_assoc, openRun_append has hr']⟩

/-- **Where the complete runs are.** A complete run stands between a boundary and a newline. -/
theorem mem_completeRuns_iff {bs run : List UInt8} :
    run ∈ completeRuns bs ↔ ∃ as r rest, bs = as ++ r ++ 0x0A :: rest ∧ Boundary as ∧ 0x0A ∉ r ∧
      run = dropCr r := by
  constructor
  · induction bs using List.reverseRecOn with
    | nil => exact fun h => nomatch h
    | append_singleton bs b ih =>
      intro h
      have hold (h : run ∈ completeRuns bs) : ∃ as r rest, bs ++ [b] = as ++ r ++ 0x0A :: rest ∧
          Boundary as ∧ 0x0A ∉ r ∧ run = dropCr r := by
        obtain ⟨as, r, rest, hbs, hrest⟩ := ih h
        exact ⟨as, r, rest ++ [b], by rw [hbs, List.append_assoc, List.cons_append], hrest⟩
      by_cases hb : b = 0x0A
      · subst hb
        rw [completeRuns_newline, List.mem_append, List.mem_singleton] at h
        rcases h with h | rfl
        · exact hold h
        · obtain ⟨as, r, hbs, has, hr, hrun⟩ := exists_openRun bs
          exact ⟨as, r, [], by rw [← hbs], has, hr, hrun⟩
      · rw [completeRuns_of_ne _ hb] at h
        exact hold h
  · rintro ⟨as, r, rest, rfl, has, hr, rfl⟩
    have hsplit : as ++ r ++ 0x0A :: rest = (as ++ r ++ [0x0A]) ++ rest := by simp
    rw [hsplit]
    refine (completeRuns_isPrefix _ rest).subset ?_
    rw [completeRuns_newline, openRun_append has hr]
    exact List.mem_append_right _ (List.mem_singleton_self _)

/-! ### Stretches of the received stream -/

open PicoUros.Gnss.Ring (acceptedBytes)

/-- The bytes that the interrupt handler has received, accepted or not. -/
def received (log : List (UInt8 × Bool)) : List UInt8 := log.map Prod.fst

/-- `seg` is the part of the received stream between two accepted newlines that follow each other,
or from its start to the first accepted newline. -/
structure Stretch (log seg : List (UInt8 × Bool)) : Prop where
  newline_not_mem : (0x0A, true) ∉ seg
  split : ∃ pre post, log = pre ++ seg ++ (0x0A, true) :: post ∧
    (pre = [] ∨ ∃ pre', pre = pre' ++ [(0x0A, true)])

theorem acceptedBytes_append (as bs : List (UInt8 × Bool)) :
    acceptedBytes (as ++ bs) = acceptedBytes as ++ acceptedBytes bs := by
  simp [acceptedBytes]

theorem mem_acceptedBytes {log : List (UInt8 × Bool)} {b : UInt8} :
    b ∈ acceptedBytes log ↔ (b, true) ∈ log := by
  simp [acceptedBytes]

/-- The place of an accepted byte in the received stream. -/
theorem exists_of_acceptedBytes_eq {log : List (UInt8 × Bool)} {as bs : List UInt8} {b : UInt8}
    (h : acceptedBytes log = as ++ b :: bs) :
    ∃ pre post, log = pre ++ (b, true) :: post ∧ acceptedBytes pre = as ∧
      acceptedBytes post = bs := by
  induction log generalizing as with
  | nil => simp [acceptedBytes] at h
  | cons p log ih =>
    obtain ⟨x, ok⟩ := p
    cases ok with
    | false =>
      obtain ⟨pre, post, rfl, hpre, hpost⟩ := ih h
      exact ⟨(x, false) :: pre, post, rfl, hpre, hpost⟩
    | true =>
      cases as with
      | nil =>
        obtain ⟨rfl, hbs⟩ := List.cons.inj h
        exact ⟨[], log, rfl, rfl, hbs⟩
      | cons a as =>
        obtain ⟨rfl, has⟩ := List.cons.inj h
        obtain ⟨pre, post, rfl, hpre, hpost⟩ := ih has
        exact ⟨(x, true) :: pre, post, rfl, congrArg _ hpre, hpost⟩

/-- A complete run of the accepted bytes is what was accepted of a stretch. -/
theorem stretch_of_mem_completeRuns {log : List (UInt8 × Bool)} {run : List UInt8}
    (h : run ∈ completeRuns (acceptedBytes log)) :
    ∃ seg, Stretch log seg ∧ run = dropCr (acceptedBytes seg) := by
  obtain ⟨as, r, rest, hacc, has, hr, rfl⟩ := mem_completeRuns_iff.mp h
  obtain ⟨pre, post, hlog, hpre, -⟩ := exists_of_acceptedBytes_eq hacc
  rcases has with rfl | ⟨as, rfl⟩
  · rw [List.nil_append] at hpre
    exact ⟨pre, ⟨fun hmem => hr (hpre ▸ mem_acceptedBytes.mpr hmem), [], post, hlog, .inl rfl⟩, by
      rw [hpre]⟩
  · rw [List.append_assoc] at hpre
    obtain ⟨pre, seg, rfl, -, hseg⟩ := exists_of_acceptedBytes_eq hpre
    have hseg : acceptedBytes seg = r := hseg
    exact ⟨seg, ⟨fun hmem => hr (hseg ▸ mem_acceptedBytes.mpr hmem), pre ++ [(0x0A, true)], post,
      by simp [hlog], .inr ⟨pre, rfl⟩⟩, by rw [hseg]⟩

theorem acceptedBytes_of_all {seg : List (UInt8 × Bool)} (h : ∀ p ∈ seg, p.2 = true) :
    acceptedBytes seg = received seg := by
  induction seg with
  | nil => rfl
  | cons p seg ih =>
    obtain ⟨x, ok⟩ := p
    cases h _ List.mem_cons_self
    exact congrArg _ (ih fun p hp => h p (List.mem_cons_of_mem _ hp))

/-- A stretch without a gap is a line of the received stream. -/
theorem Stretch.mem_completeRuns {log seg : List (UInt8 × Bool)} (h : Stretch log seg)
    (hall : ∀ p ∈ seg, p.2 = true) :
    dropCr (acceptedBytes seg) ∈ completeRuns (received log) := by
  obtain ⟨pre, post, rfl, hpre⟩ := h.split
  rw [acceptedBytes_of_all hall]
  refine mem_completeRuns_iff.mpr ⟨received pre, received seg, received post, by simp [received],
    ?_, fun hmem => ?_, rfl⟩
  · rcases hpre with rfl | ⟨pre, rfl⟩
    · exact .inl rfl
    · exact .inr ⟨received pre, by simp [received]⟩
  · obtain ⟨p, hp, hfst⟩ := List.mem_map.mp hmem
    have hp' : p = (0x0A, true) := Prod.ext hfst (hall p hp)
    exact h.newline_not_mem (hp' ▸ hp)

/-- **Where a line comes from.** For every schedule, a line that the loop dispatches is what was
accepted of a stretch of the received stream, less what the buffer had no room for. If every line
received has at most 219 bytes and no byte of the stretch was refused, it is a line received. -/
theorem stretch_of_dispatched {as : List Ring.Act} {s : Ring.State}
    (h : Machine.run Ring.step {} as = some s) {l : List UInt8} (hl : l ∈ dispatched c s.popped) :
    ∃ seg, Stretch s.log seg ∧ l = keptTail (dropCr (acceptedBytes seg)) ∧
      ((∀ run ∈ completeRuns (received s.log), run.length ≤ 219) → (∀ p ∈ seg, p.2 = true) →
        l ∈ completeRuns (received s.log)) := by
  rw [dispatched_eq] at hl
  obtain ⟨run, hrun, rfl⟩ := List.mem_map.mp hl
  have hacc : s.accepted = s.popped ++ _ := (Ring.inv_run h).fifo
  have hmem : run ∈ completeRuns (acceptedBytes s.log) := by
    rw [show acceptedBytes s.log = _ from hacc]
    exact (completeRuns_isPrefix _ _).subset hrun
  obtain ⟨seg, hseg, rfl⟩ := stretch_of_mem_completeRuns hmem
  refine ⟨seg, hseg, rfl, fun hlen hall => ?_⟩
  have hline := hseg.mem_completeRuns hall
  rwa [keptTail_of_le (hlen _ hline)]

/-! ### Schedules -/

/-- Neither side is inside an operation on the ring. -/
structure Idle (s : Ring.State) : Prop where
  inv : Ring.Inv s
  push : s.push = .idle
  pop : s.pop = .idle

/-- A byte is received, and pushed without an access of the other side in between. -/
def receive (b : UInt8) : List Ring.Act := [.irq b, .push, .push, .push, .push, .push]

/-- A byte is received while the ring is full. -/
def receiveFull (b : UInt8) : List Ring.Act := [.irq b, .push, .push, .push]

/-- A byte is popped without an access of the other side in between. -/
def popOne : List Ring.Act := [.popBegin, .pop, .pop, .pop, .pop, .pop]

/-- One line is received and popped. -/
def oneLine : List Ring.Act := (bytes "A\n").flatMap receive ++ popOne ++ popOne

theorem stretch_of_dispatched_oneLine :
    ∃ s, Machine.run Ring.step {} oneLine = some s ∧ ∃ seg, Stretch s.log seg ∧
      bytes "A" = keptTail (dropCr (acceptedBytes seg)) ∧
      bytes "A" ∈ completeRuns (received s.log) := by
  have h : Machine.run Ring.step {} oneLine = some _ := rfl
  obtain ⟨seg, hseg, hl, hline⟩ :=
    stretch_of_dispatched Libc.exact h (l := bytes "A") (by decide)
  refine ⟨_, h, seg, hseg, hl, hline (by decide) fun p hp => ?_⟩
  obtain ⟨pre, post, hlog, -⟩ := hseg.split
  have hlog : [(0x41, true), (0x0A, true)] = pre ++ seg ++ (0x0A, true) :: post := hlog
  have hmem : p ∈ [((0x41 : UInt8), true), (0x0A, true)] := by
    rw [hlog]
    simp [hp]
  rcases List.mem_pair.mp hmem with rfl | rfl <;> rfl

/-- A byte received with room in the ring is accepted. -/
theorem run_receive {s : Ring.State} (h : Idle s) (b : UInt8)
    (hroom : s.accepted.length + 1 < s.popped.length + Ring.gnssRingSize) :
    ∃ t, Machine.run Ring.step s (receive b) = some t ∧ Idle t ∧ t.log = s.log ++ [(b, true)] ∧
      t.popped = s.popped := by
  have hne : (s.head + 1) % Ring.gnssRingSize % 2 ^ 16 ≠ s.tail := by
    rw [h.inv.head, h.inv.tail, Ring.succ_index]
    exact Ring.not_full_of_room h.inv.le hroom
  have hrun : Machine.run Ring.step s (receive b) = some { s with
      bytesRx := s.bytesRx + 1, ring := Function.update s.ring s.head b, push := .idle,
      head := (s.head + 1) % Ring.gnssRingSize % 2 ^ 16, log := s.log ++ [(b, true)] } := by
    simp only [receive, Machine.run_cons, Machine.run_nil, Ring.step, Ring.pushStep, h.push,
      Option.bind_some, if_neg hne]
  exact ⟨_, hrun, ⟨Machine.inv_of_run Ring.inv_step h.inv hrun, rfl, h.pop⟩, rfl, rfl⟩

/-- A byte received with a full ring is refused. -/
theorem run_receiveFull {s : Ring.State} (h : Idle s) (b : UInt8)
    (hfull : s.accepted.length + 1 = s.popped.length + Ring.gnssRingSize) :
    ∃ t, Machine.run Ring.step s (receiveFull b) = some t ∧ Idle t ∧
      t.log = s.log ++ [(b, false)] ∧ t.popped = s.popped := by
  have heq : (s.head + 1) % Ring.gnssRingSize % 2 ^ 16 = s.tail := by
    rw [h.inv.head, h.inv.tail, Ring.succ_index, hfull, Nat.add_mod_right]
  have hrun : Machine.run Ring.step s (receiveFull b) = some { s with
      bytesRx := s.bytesRx + 1, overflow := s.overflow + 1, push := .idle,
      log := s.log ++ [(b, false)],
      heldAtRefusal := s.heldAtRefusal ++ [s.contents.length] } := by
    simp only [receiveFull, Machine.run_cons, Machine.run_nil, Ring.step, Ring.pushStep, h.push,
      Option.bind_some, if_pos heq]
    rfl
  exact ⟨_, hrun, ⟨Machine.inv_of_run Ring.inv_step h.inv hrun, rfl, h.pop⟩, rfl, rfl⟩

/-- A byte in the ring is popped. -/
theorem run_popOne {s : Ring.State} (h : Idle s) (hlt : s.popped.length < s.accepted.length) :
    ∃ t, Machine.run Ring.step s popOne = some t ∧ Idle t ∧ t.log = s.log ∧
      t.popped.length = s.popped.length + 1 := by
  have hne : s.tail ≠ s.head := by
    rw [h.inv.head, h.inv.tail]
    exact Ring.not_empty_of_lt hlt h.inv.lt
  have hrun : Machine.run Ring.step s popOne = some { s with
      tail := (s.tail + 1) % Ring.gnssRingSize % 2 ^ 16, pop := .idle,
      popped := s.popped ++ [s.ring s.tail] } := by
    simp only [popOne, Machine.run_cons, Machine.run_nil, Ring.step, Ring.popStep, h.pop,
      Option.bind_some, if_neg hne]
  exact ⟨_, hrun, ⟨Machine.inv_of_run Ring.inv_step h.inv hrun, h.push, rfl⟩, rfl,
    List.length_append⟩

theorem length_accepted_concat {s t : Ring.State} {b : UInt8}
    (h : t.log = s.log ++ [(b, true)]) : t.accepted.length = s.accepted.length + 1 := by
  rw [Ring.State.accepted, h, Ring.acceptedBytes_concat_true, List.length_append]
  rfl

theorem run_receiveAll {s : Ring.State} (h : Idle s) (bs : List UInt8)
    (hroom : s.accepted.length + bs.length < s.popped.length + Ring.gnssRingSize) :
    ∃ t, Machine.run Ring.step s (bs.flatMap receive) = some t ∧ Idle t ∧
      t.log = s.log ++ bs.map (·, true) ∧ t.popped = s.popped := by
  induction bs generalizing s with
  | nil => exact ⟨s, rfl, h, (List.append_nil _).symm, rfl⟩
  | cons b bs ih =>
    rw [List.length_cons] at hroom
    obtain ⟨t, ht, hidle, hlog, hpopped⟩ := run_receive h b (by omega)
    have hlen := length_accepted_concat hlog
    obtain ⟨u, hu, hidle, hlog', hpopped'⟩ := ih hidle (by rw [hlen, hpopped]; omega)
    exact ⟨u, by rw [List.flatMap_cons, Machine.run_append, ht, Option.bind_some, hu], hidle,
      by rw [hlog', hlog]; simp, hpopped'.trans hpopped⟩

theorem run_receiveFullAll {s : Ring.State} (h : Idle s) (bs : List UInt8)
    (hfull : s.accepted.length + 1 = s.popped.length + Ring.gnssRingSize) :
    ∃ t, Machine.run Ring.step s (bs.flatMap receiveFull) = some t ∧ Idle t ∧
      t.log = s.log ++ bs.map (·, false) ∧ t.popped = s.popped := by
  induction bs generalizing s with
  | nil => exact ⟨s, rfl, h, (List.append_nil _).symm, rfl⟩
  | cons b bs ih =>
    obtain ⟨t, ht, hidle, hlog, hpopped⟩ := run_receiveFull h b hfull
    have hlen : t.accepted = s.accepted := by
      rw [Ring.State.accepted, hlog, Ring.acceptedBytes_concat_false]
      rfl
    obtain ⟨u, hu, hidle, hlog', hpopped'⟩ := ih hidle (by rw [hlen, hpopped, hfull])
    exact ⟨u, by rw [List.flatMap_cons, Machine.run_append, ht, Option.bind_some, hu], hidle,
      by rw [hlog', hlog]; simp, hpopped'.trans hpopped⟩

/-- The bytes in the ring can all be popped. -/
theorem run_popAll {s : Ring.State} (h : Idle s) :
    ∃ as t, Machine.run Ring.step s as = some t ∧ Idle t ∧ t.log = s.log ∧
      t.popped = s.accepted := by
  induction hn : s.accepted.length - s.popped.length generalizing s with
  | zero =>
    refine ⟨[], s, rfl, h, rfl, ?_⟩
    have hle := h.inv.le
    have hfifo := h.inv.fifo
    rw [show s.accepted.length = s.popped.length by omega, ringWindow_self, List.append_nil]
      at hfifo
    exact hfifo.symm
  | succ n ih =>
    obtain ⟨t, ht, hidle, hlog, hpopped⟩ := run_popOne h (by omega)
    have hacc : t.accepted = s.accepted := by rw [Ring.State.accepted, hlog]; rfl
    obtain ⟨as, u, hu, hidle, hlog', hpopped'⟩ := ih hidle (by rw [hacc, hpopped]; omega)
    exact ⟨popOne ++ as, u, by rw [Machine.run_append, ht, Option.bind_some, hu], hidle,
      hlog'.trans hlog, hpopped'.trans hacc⟩

/-! ### A glued line -/

theorem completeRuns_newlines (n : ℕ) (bs : List UInt8) :
    completeRuns (List.replicate n 0x0A ++ bs) = List.replicate n [] ++ completeRuns bs := by
  induction n with
  | zero => rfl
  | succ n ih =>
    rw [List.replicate_succ, List.replicate_succ, List.cons_append, List.cons_append, ← ih,
      completeRuns, List.splitOn_cons_eq_if_modifyHead, if_pos (beq_self_eq_true _),
      List.dropLast_cons_of_ne_nil (List.splitOn_ne_nil _ _)]
    rfl

/-- Empty lines and the beginning of a sentence, which fill the ring. -/
def filler : List UInt8 := List.replicate 4088 0x0A ++ bytes "$GNGGA,"

/-- The rest of this sentence finds the ring full, and the next one does not. -/
def gluedLog : List (UInt8 × Bool) :=
  filler.map (·, true) ++ (bytes "A\n").map (·, false) ++ (bytes "B\n").map (·, true)

theorem received_gluedLog :
    received gluedLog = List.replicate 4088 0x0A ++ bytes "$GNGGA,A\nB\n" := by
  simp only [received, gluedLog, List.map_append, List.map_map, Function.comp_def, List.map_id',
    filler, List.append_assoc]
  rfl

theorem acceptedBytes_true (bs : List UInt8) : acceptedBytes (bs.map (·, true)) = bs := by
  rw [acceptedBytes_of_all (by simp)]
  simp [received, Function.comp_def]

theorem length_filler : filler.length = 4095 := by
  rw [filler, List.length_append, List.length_replicate]
  rfl

theorem acceptedBytes_gluedLog :
    acceptedBytes gluedLog = List.replicate 4088 0x0A ++ bytes "$GNGGA,B\n" := by
  rw [gluedLog, acceptedBytes_append, acceptedBytes_append, acceptedBytes_true, acceptedBytes_true,
    filler, List.append_assoc, List.append_assoc]
  rfl

/-- Fill the ring, receive two bytes more, empty the ring, receive the next line and pop it. -/
theorem exists_gluedRun :
    ∃ as s, Machine.run Ring.step {} as = some s ∧ s.log = gluedLog ∧
      s.popped = acceptedBytes gluedLog := by
  obtain ⟨s₁, h₁, hidle, hlog₁, hpop₁⟩ :=
    run_receiveAll (s := {}) ⟨Ring.inv_init, rfl, rfl⟩ filler (by
      rw [length_filler]
      decide)
  have hacc₁ : s₁.accepted = filler := by
    rw [Ring.State.accepted, hlog₁]
    exact acceptedBytes_true filler
  obtain ⟨s₂, h₂, hidle, hlog₂, hpop₂⟩ := run_receiveFullAll hidle (bytes "A\n") (by
    rw [hacc₁, hpop₁, length_filler]
    rfl)
  obtain ⟨as₃, s₃, h₃, hidle, hlog₃, hpop₃⟩ := run_popAll hidle
  obtain ⟨s₄, h₄, hidle, hlog₄, hpop₄⟩ := run_receiveAll hidle (bytes "B\n") (by
    have hacc₃ : s₃.accepted = s₂.accepted := by rw [Ring.State.accepted, hlog₃]; rfl
    rw [hpop₃, hacc₃]
    exact Nat.add_lt_add_left (by decide) _)
  obtain ⟨as₅, s₅, h₅, hidle, hlog₅, hpop₅⟩ := run_popAll hidle
  have hlog₄' : s₄.log = gluedLog := by
    rw [hlog₄, hlog₃, hlog₂, hlog₁]
    rfl
  refine ⟨filler.flatMap receive ++ (bytes "A\n").flatMap receiveFull ++ as₃ ++
    (bytes "B\n").flatMap receive ++ as₅, s₅, ?_, hlog₅.trans hlog₄', by
      rw [hpop₅, Ring.State.accepted, hlog₄']⟩
  rw [Machine.run_append, Machine.run_append, Machine.run_append, Machine.run_append, h₁,
    Option.bind_some, h₂, Option.bind_some, h₃, Option.bind_some, h₄, Option.bind_some, h₅]

/-- The beginning of one sentence and the whole of the next line are parsed as one GGA sentence,
although no line received has more than eight bytes. -/
theorem glued_line :
    ∃ as s, Machine.run Ring.step {} as = some s ∧ s.log = gluedLog ∧
      (∀ run ∈ completeRuns (received s.log), run.length ≤ 219) ∧
      ∃ l ∈ dispatched Libc.exact s.popped, isGga l ∧ l ∉ completeRuns (received s.log) := by
  obtain ⟨as, s, hrun, hlog, hpopped⟩ := exists_gluedRun
  have hreceived : completeRuns (received s.log) =
      List.replicate 4088 [] ++ [bytes "$GNGGA,A", bytes "B"] := by
    rw [hlog, received_gluedLog, completeRuns_newlines]
    rfl
  refine ⟨as, s, hrun, hlog, fun run hrun => ?_, bytes "$GNGGA,B", ?_, by decide, fun h => ?_⟩
  · rw [hreceived, List.mem_append, List.mem_replicate] at hrun
    rcases hrun with ⟨-, rfl⟩ | hrun
    · exact Nat.zero_le _
    · revert run
      decide
  · rw [dispatched_eq, hpopped, acceptedBytes_gluedLog, completeRuns_newlines, List.map_append]
    refine List.mem_append_right _ ?_
    decide
  · rw [hreceived, List.mem_append, List.mem_replicate] at h
    revert h
    decide

end PicoUros.Gnss
