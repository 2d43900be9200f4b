import PicoUros.Lib.Machine
import PicoUros.Lib.RingWindow

/-!
# The ring between the GNSS UART interrupt and core 1

The UART interrupt on core 0 puts every received byte into `gnss_ring` with `gnss_ring_push`, and
core 1 takes bytes out with `gnss_ring_pop` (`src/main.cpp`, lines 88–93 and 607–639). The indices
and the slots are plain volatile variables, so `step` performs one access at a time: a push reads
`gnss_head`, reads `gnss_tail`, compares, stores the byte and publishes `gnss_head`; a pop reads
`gnss_tail`, reads `gnss_head`, compares, loads the byte and publishes `gnss_tail`. Each side works
with a value of the other side's index that may be out of date by the time it is used.

The state also records the bytes that the interrupt received, each with the outcome of its push,
and the bytes popped.

## Main definitions

* `State`, `Act`, `step`: the machine.
* `State.accepted`, `State.contents`: the bytes pushed successfully and the bytes in the ring.

## Main results

* `Inv`, `inv_step`: the invariant, in which the two indices are counters modulo the ring size.
* `refinesFifo`: for every interleaving the ring is a FIFO queue of at most
  `GNSS_RING_SIZE - 1` bytes (`IsFifo`).
-/

namespace PicoUros.Gnss.Ring

/-- `GNSS_RING_SIZE`. -/
abbrev gnssRingSize : ℕ := 4096

/-- Where the interrupt is inside `gnss_ring_push`, with its local variables. In `testFull`, `held`
records how many bytes the ring held when `gnss_tail` was read. -/
inductive Push where
  | idle
  | readHead (c : UInt8)
  | readTail (c : UInt8) (next : ℕ)
  | testFull (c : UInt8) (next tail held : ℕ)
  | store (c : UInt8) (next : ℕ)
  | publish (c : UInt8) (next : ℕ)
  deriving DecidableEq

/-- Where core 1 is inside `gnss_ring_pop`, with the values it has read. -/
inductive Pop where
  | idle
  | readTail
  | readHead (tail : ℕ)
  | testEmpty (tail head : ℕ)
  | load
  | publish (c : UInt8)
  deriving DecidableEq

structure State where
  /-- `gnss_ring`. -/
  ring : ℕ → UInt8 := fun _ => 0
  /-- `gnss_head`. -/
  head : ℕ := 0
  /-- `gnss_tail`. -/
  tail : ℕ := 0
  /-- `gnss_overflow`. -/
  overflow : UInt32 := 0
  /-- `gnss_bytes_rx`. -/
  bytesRx : UInt32 := 0
  push : Push := .idle
  pop : Pop := .idle
  /-- The bytes whose push has returned, with its result. -/
  log : List (UInt8 × Bool) := []
  /-- For each refused push, how many bytes the ring held when it read `gnss_tail`. -/
  heldAtRefusal : List ℕ := []
  popped : List UInt8 := []

/-- The bytes pushed with success, in order. -/
def acceptedBytes (log : List (UInt8 × Bool)) : List UInt8 :=
  log.filterMap fun p => if p.2 then some p.1 else none

/-- The bytes pushed with success, in order. -/
def State.accepted (s : State) : List UInt8 := acceptedBytes s.log

/-- The bytes in the ring, between `gnss_tail` and `gnss_head`. -/
def State.contents (s : State) : List UInt8 :=
  (List.range ((s.head + gnssRingSize - s.tail) % gnssRingSize)).map fun i =>
    s.ring ((s.tail + i) % gnssRingSize)

/-- `irq c` is one pass of the loop of `gnss_uart_irq_handler` up to its call of
`gnss_ring_push`, and `push` is the next access of that call. `popBegin` enters `gnss_ring_pop`, and
`pop` is its next access. -/
inductive Act where
  | irq (c : UInt8)
  | push
  | popBegin
  | pop

/-- The next access of `gnss_ring_push`. -/
def pushStep (s : State) : Option State :=
  match s.push with
  | .idle => none
  | .readHead c =>
    some { s with push := .readTail c ((s.head + 1) % gnssRingSize % 2 ^ 16) }
  | .readTail c next =>
    some { s with push := .testFull c next s.tail s.contents.length }
  | .testFull c next tail held =>
    if next = tail then
      some { s with
        overflow := s.overflow + 1, push := .idle, log := s.log ++ [(c, false)],
        heldAtRefusal := s.heldAtRefusal ++ [held] }
    else
      some { s with push := .store c next }
  | .store c next =>
    some { s with ring := Function.update s.ring s.head c, push := .publish c next }
  | .publish c next =>
    some { s with head := next, push := .idle, log := s.log ++ [(c, true)] }

/-- The next access of `gnss_ring_pop`. -/
def popStep (s : State) : Option State :=
  match s.pop with
  | .idle => none
  | .readTail => some { s with pop := .readHead s.tail }
  | .readHead tail => some { s with pop := .testEmpty tail s.head }
  | .testEmpty tail head => some { s with pop := if tail = head then .idle else .load }
  | .load => some { s with pop := .publish (s.ring s.tail) }
  | .publish c =>
    some { s with
      tail := (s.tail + 1) % gnssRingSize % 2 ^ 16, pop := .idle, popped := s.popped ++ [c] }

def step (s : State) : Act → Option State
  | .irq c =>
    match s.push with
    | .idle => some { s with bytesRx := s.bytesRx + 1, push := .readHead c }
    | _ => none
  | .push => pushStep s
  | .popBegin =>
    match s.pop with
    | .idle => some { s with pop := .readTail }
    | _ => none
  | .pop => popStep s

/-! ### Indices as counters

An index is the number of bytes that passed it, modulo the ring size. -/

/-- The successor of an index, as both functions compute it in a `uint16_t`. -/
theorem succ_index (n : ℕ) :
    (n % gnssRingSize + 1) % gnssRingSize % 2 ^ 16 = (n + 1) % gnssRingSize := by
  simp only [gnssRingSize]
  omega

/-- When the test for a full ring succeeds, all slots but one were taken when `gnss_tail` was
read. -/
theorem held_of_full {a q held : ℕ} (hfull : (a + 1) % gnssRingSize = q % gnssRingSize)
    (hheld : held + q = a) (hlt : a < q + gnssRingSize) : held = gnssRingSize - 1 := by
  simp only [gnssRingSize] at *
  omega

/-- When the test for a full ring fails, two slots are free, also if `gnss_tail` has moved on. -/
theorem room_of_not_full {a q p : ℕ} (hfull : (a + 1) % gnssRingSize ≠ q % gnssRingSize)
    (hlt : a < q + gnssRingSize) (hq : q ≤ p) : a + 1 < p + gnssRingSize := by
  simp only [gnssRingSize] at *
  omega

/-- The test for a full ring fails while two slots are free. -/
theorem not_full_of_room {a p : ℕ} (hle : p ≤ a) (hroom : a + 1 < p + gnssRingSize) :
    (a + 1) % gnssRingSize ≠ p % gnssRingSize := by
  simp only [gnssRingSize] at *
  omega

/-- The test for an empty ring fails when a byte is in the ring. -/
theorem not_empty_of_lt {a p : ℕ} (hp : p < a) (hlt : a < p + gnssRingSize) :
    p % gnssRingSize ≠ a % gnssRingSize := by
  simp only [gnssRingSize] at *
  omega

/-- How many slots there are from `gnss_tail` to `gnss_head`. -/
theorem held_index {a p : ℕ} (hle : p ≤ a) (hlt : a < p + gnssRingSize) :
    (a % gnssRingSize + gnssRingSize - p % gnssRingSize) % gnssRingSize = a - p := by
  simp only [gnssRingSize] at *
  omega

/-! ### The invariant -/

@[simp] theorem acceptedBytes_concat_true (log : List (UInt8 × Bool)) (c : UInt8) :
    acceptedBytes (log ++ [(c, true)]) = acceptedBytes log ++ [c] := by
  simp [acceptedBytes]

@[simp] theorem acceptedBytes_concat_false (log : List (UInt8 × Bool)) (c : UInt8) :
    acceptedBytes (log ++ [(c, false)]) = acceptedBytes log := by
  simp [acceptedBytes]

/-- What the local variables of a push say, when `a` bytes were accepted and `p` popped. The value
of `gnss_tail` it has read may be that of an earlier moment, when `q ≤ p` bytes had been popped. -/
def Push.Ok (ring : ℕ → UInt8) (a p : ℕ) : Push → Prop
  | .idle | .readHead _ => True
  | .readTail _ next => next = (a + 1) % gnssRingSize
  | .testFull _ next tail held => next = (a + 1) % gnssRingSize ∧
      ∃ q ≤ p, tail = q % gnssRingSize ∧ held + q = a ∧ a < q + gnssRingSize
  | .store _ next => next = (a + 1) % gnssRingSize ∧ a + 1 < p + gnssRingSize
  | .publish c next => next = (a + 1) % gnssRingSize ∧ a + 1 < p + gnssRingSize ∧
      ring (a % gnssRingSize) = c

/-- What the values read by a pop say. The value of `gnss_head` may be that of an earlier moment,
when `b ≤ a` bytes had been accepted. -/
def Pop.Ok (accepted : List UInt8) (p : ℕ) : Pop → Prop
  | .idle | .readTail => True
  | .readHead tail => tail = p % gnssRingSize
  | .testEmpty tail head => tail = p % gnssRingSize ∧
      ∃ b ≤ accepted.length, p ≤ b ∧ head = b % gnssRingSize
  | .load => p < accepted.length
  | .publish c => accepted[p]? = some c

/-- The push that the interrupt is inside of. -/
def Push.inFlight : Push → ℕ
  | .idle => 0
  | _ => 1

/-- What holds in every reachable state. -/
structure Inv (s : State) : Prop where
  head : s.head = s.accepted.length % gnssRingSize
  tail : s.tail = s.popped.length % gnssRingSize
  le : s.popped.length ≤ s.accepted.length
  lt : s.accepted.length < s.popped.length + gnssRingSize
  fifo : s.accepted =
    s.popped ++ ringWindow gnssRingSize s.ring s.popped.length s.accepted.length
  push : s.push.Ok s.ring s.accepted.length s.popped.length
  pop : s.pop.Ok s.accepted s.popped.length
  bytesRx : s.bytesRx = .ofNat (s.log.length + s.push.inFlight)
  overflow : s.overflow = .ofNat s.heldAtRefusal.length
  log : s.log.length = s.accepted.length + s.heldAtRefusal.length
  heldAtRefusal : ∀ n ∈ s.heldAtRefusal, n = gnssRingSize - 1

theorem inv_init : Inv {} where
  head := rfl
  tail := rfl
  le := le_rfl
  lt := by decide
  fifo := rfl
  push := trivial
  pop := trivial
  bytesRx := rfl
  overflow := rfl
  log := rfl
  heldAtRefusal _ hn := absurd hn List.not_mem_nil

/-- The slots from `gnss_tail` to `gnss_head` are the window of the bytes not popped yet. -/
theorem Inv.contents_eq {s : State} (h : Inv s) :
    s.contents = ringWindow gnssRingSize s.ring s.popped.length s.accepted.length := by
  rw [State.contents, h.head, h.tail, held_index h.le h.lt, ringWindow, List.range'_eq_map_range,
    List.map_map]
  refine List.map_congr_left fun i _ => ?_
  rw [Nat.mod_add_mod]
  rfl

/-- A push keeps what it knows when core 1 pops a byte. -/
theorem Push.Ok.pop_succ {ring : ℕ → UInt8} {a p : ℕ} {pc : Push} (h : pc.Ok ring a p) :
    pc.Ok ring a (p + 1) := by
  cases pc with
  | idle | readHead => trivial
  | readTail => exact h
  | testFull =>
    obtain ⟨hnext, q, hq, h⟩ := h
    exact ⟨hnext, q, Nat.le_succ_of_le hq, h⟩
  | store =>
    obtain ⟨hnext, hlt⟩ := h
    exact ⟨hnext, by omega⟩
  | publish =>
    obtain ⟨hnext, hlt, hring⟩ := h
    exact ⟨hnext, by omega, hring⟩

/-- A pop keeps what it knows when the interrupt accepts a byte. -/
theorem Pop.Ok.accept {accepted : List UInt8} {p : ℕ} {pc : Pop} (h : pc.Ok accepted p)
    (c : UInt8) : pc.Ok (accepted ++ [c]) p := by
  cases pc with
  | idle | readTail => trivial
  | readHead => exact h
  | testEmpty =>
    obtain ⟨htail, b, hb, h⟩ := h
    exact ⟨htail, b, by rw [List.length_append]; omega, h⟩
  | load =>
    rw [Pop.Ok, List.length_append]
    exact Nat.lt_add_right _ h
  | publish =>
    obtain ⟨hlt, -⟩ := List.getElem?_eq_some_iff.mp h
    rw [Pop.Ok, List.getElem?_append_left hlt]
    exact h

/-- A push that is refused adds to the overflow counter only. -/
theorem inv_refuse {s : State} {c : UInt8} {next tail held : ℕ} (h : Inv s)
    (hpc : s.push = .testFull c next tail held) (hheld : held = gnssRingSize - 1) :
    Inv { s with
      overflow := s.overflow + 1, push := .idle, log := s.log ++ [(c, false)],
      heldAtRefusal := s.heldAtRefusal ++ [held] } := by
  have hbytes := h.bytesRx
  rw [hpc] at hbytes
  have hlen : (acceptedBytes (s.log ++ [(c, false)])).length = s.accepted.length := by
    rw [acceptedBytes_concat_false]
    rfl
  exact
    { h with
      head := by rw [State.accepted, hlen]; exact h.head
      le := by rw [State.accepted, hlen]; exact h.le
      lt := by rw [State.accepted, hlen]; exact h.lt
      fifo := by rw [State.accepted, acceptedBytes_concat_false]; exact h.fifo
      push := trivial
      pop := by rw [State.accepted, acceptedBytes_concat_false]; exact h.pop
      bytesRx := by simpa [Push.inFlight] using hbytes
      overflow := by simp [h.overflow]
      log := by
        rw [State.accepted, hlen, List.length_append, List.length_append, h.log]
        rfl
      heldAtRefusal := fun n hn => by
        rcases List.mem_append.mp hn with hn | hn
        · exact h.heldAtRefusal n hn
        · exact List.mem_singleton.mp hn ▸ hheld }

/-- The store of `gnss_head` makes the byte visible, and ends the push. -/
theorem inv_accept {s : State} {c : UInt8} {next : ℕ} (h : Inv s)
    (hpc : s.push = .publish c next) :
    Inv { s with head := next, push := .idle, log := s.log ++ [(c, true)] } := by
  have hpush := h.push
  have hbytes := h.bytesRx
  rw [hpc] at hpush hbytes
  obtain ⟨hnext, hroom, hring⟩ := hpush
  have hlen : (s.accepted ++ [c]).length = s.accepted.length + 1 := List.length_append
  have hacc : acceptedBytes (s.log ++ [(c, true)]) = s.accepted ++ [c] :=
    acceptedBytes_concat_true _ _
  have hle := h.le
  exact
    { h with
      head := by rw [State.accepted, hacc, hlen]; exact hnext
      le := by rw [State.accepted, hacc, hlen]; exact Nat.le_succ_of_le hle
      lt := by rw [State.accepted, hacc, hlen]; exact hroom
      fifo := by
        rw [State.accepted, hacc, hlen, ringWindow_concat hle, hring, ← List.append_assoc,
          ← h.fifo]
      push := trivial
      pop := by rw [State.accepted, hacc]; exact h.pop.accept c
      bytesRx := by simpa [Push.inFlight] using hbytes
      log := by
        rw [State.accepted, hacc, hlen, List.length_append, h.log]
        exact Nat.add_right_comm _ _ _ }

theorem inv_push {s t : State} (h : Inv s) (ht : pushStep s = some t) : Inv t := by
  have hpush := h.push
  have hbytes := h.bytesRx
  have hhead := h.head
  have hlt := h.lt
  cases hpc : s.push with
  | idle => simp [pushStep, hpc] at ht
  | readHead c =>
    simp only [pushStep, hpc, Option.some.injEq] at ht
    rw [hpc] at hbytes
    subst ht
    have hnext : (s.head + 1) % gnssRingSize % 2 ^ 16 =
        (s.accepted.length + 1) % gnssRingSize := by rw [hhead, succ_index]
    exact { h with push := hnext, bytesRx := hbytes }
  | readTail c next =>
    simp only [pushStep, hpc, Option.some.injEq] at ht
    rw [hpc] at hpush hbytes
    subst ht
    have hheld : s.contents.length + s.popped.length = s.accepted.length := by
      rw [h.contents_eq, length_ringWindow, Nat.sub_add_cancel h.le]
    exact
      { h with
        push := ⟨hpush, s.popped.length, le_rfl, h.tail, hheld, hlt⟩
        bytesRx := hbytes }
  | testFull c next tail held =>
    simp only [pushStep, hpc] at ht
    rw [hpc] at hpush hbytes
    obtain ⟨hnext, q, hq, htail, hheld, hltq⟩ := hpush
    split_ifs at ht with heq <;> cases ht
    · have hfull := held_of_full (hnext.symm.trans (heq.trans htail)) hheld hltq
      exact inv_refuse h hpc hfull
    · have hroom := room_of_not_full (fun h => heq (hnext.trans (h.trans htail.symm))) hltq hq
      exact { h with push := ⟨hnext, hroom⟩, bytesRx := hbytes }
  | store c next =>
    simp only [pushStep, hpc, Option.some.injEq] at ht
    rw [hpc] at hpush hbytes
    subst ht
    obtain ⟨hnext, hroom⟩ := hpush
    exact
      { h with
        fifo := by
          have hfifo := h.fifo
          rwa [← ringWindow_update hlt c, ← hhead] at hfifo
        push := ⟨hnext, hroom, by rw [hhead]; exact Function.update_self ..⟩
        bytesRx := hbytes }
  | publish c next =>
    simp only [pushStep, hpc, Option.some.injEq] at ht
    subst ht
    exact inv_accept h hpc

theorem inv_pop {s t : State} (h : Inv s) (ht : popStep s = some t) : Inv t := by
  have hpop := h.pop
  have htail := h.tail
  have hhead := h.head
  have hle := h.le
  have hlt := h.lt
  cases hpc : s.pop with
  | idle => simp [popStep, hpc] at ht
  | readTail =>
    simp only [popStep, hpc, Option.some.injEq] at ht
    subst ht
    exact { h with pop := htail }
  | readHead tail =>
    simp only [popStep, hpc, Option.some.injEq] at ht
    rw [hpc] at hpop
    subst ht
    exact { h with pop := ⟨hpop, s.accepted.length, le_rfl, hle, hhead⟩ }
  | testEmpty tail head =>
    simp only [popStep, hpc, Option.some.injEq] at ht
    rw [hpc] at hpop
    subst ht
    obtain ⟨hpop, b, hb, hpb, hheadb⟩ := hpop
    by_cases heq : tail = head
    · exact { h with pop := by rw [if_pos heq]; trivial }
    · -- The indices differ, so a byte had been accepted when `gnss_head` was read.
      have hne : s.popped.length ≠ b := fun hpb => heq (by rw [hpop, hheadb, hpb])
      have hload : s.popped.length < s.accepted.length := by omega
      exact { h with pop := by rw [if_neg heq]; exact hload }
  | load =>
    simp only [popStep, hpc, Option.some.injEq] at ht
    rw [hpc] at hpop
    subst ht
    have hbyte : s.accepted[s.popped.length]? = some (s.ring s.tail) := by
      rw [h.fifo, List.getElem?_append_right le_rfl, ringWindow_eq_cons hpop, htail]
      simp
    exact { h with pop := hbyte }
  | publish c =>
    simp only [popStep, hpc, Option.some.injEq] at ht
    rw [hpc] at hpop
    subst ht
    obtain ⟨hpub, -⟩ := List.getElem?_eq_some_iff.mp hpop
    have hcons := h.fifo
    rw [ringWindow_eq_cons hpub] at hcons
    have hc : s.ring (s.popped.length % gnssRingSize) = c := by
      have hbyte : s.accepted[s.popped.length]? = some c := hpop
      rw [hcons, List.getElem?_append_right le_rfl] at hbyte
      simpa using hbyte
    have hlen : (s.popped ++ [c]).length = s.popped.length + 1 := List.length_append
    exact
      { h with
        tail := by rw [hlen, htail, succ_index]
        le := by rw [hlen]; exact hpub
        lt := by rw [hlen]; exact hlt.trans_le (by omega)
        fifo := by
          rw [hlen, List.append_assoc, List.singleton_append, ← hc]
          exact hcons
        push := by rw [hlen]; exact h.push.pop_succ
        pop := trivial }

theorem inv_step (s : State) (a : Act) (t : State) (h : Inv s) (ht : step s a = some t) :
    Inv t := by
  cases a with
  | irq c =>
    simp only [step] at ht
    split at ht <;> cases ht
    next hidle =>
    have hbytes := h.bytesRx
    rw [hidle] at hbytes
    exact { h with push := trivial, bytesRx := by simp [hbytes, Push.inFlight] }
  | push => exact inv_push h ht
  | popBegin =>
    simp only [step] at ht
    split at ht <;> cases ht
    exact { h with pop := trivial }
  | pop => exact inv_pop h ht

/-- Every state of every interleaving satisfies the invariant. -/
theorem inv_run {as : List Act} {s : State} (h : Machine.run step {} as = some s) : Inv s :=
  Machine.inv_of_run inv_step inv_init h

/-! ### Refinement of a FIFO queue -/

/-- The slot that a pop is about to load holds the next byte of the queue. -/
theorem Inv.load_eq {s : State} (h : Inv s) (hpop : s.pop = .load) :
    s.accepted[s.popped.length]? = some (s.ring s.tail) := by
  have hlt : s.popped.length < s.accepted.length := by
    have hok := h.pop
    rwa [hpop] at hok
  rw [h.fifo, List.getElem?_append_right le_rfl, ringWindow_eq_cons hlt, h.tail]
  simp

theorem Inv.length_contents_le {s : State} (h : Inv s) :
    s.contents.length ≤ gnssRingSize - 1 := by
  have hlt := h.lt
  rw [h.contents_eq, length_ringWindow]
  simp only [gnssRingSize] at *
  omega

/-- Between two interrupts every byte received was accepted or counted as an overflow. -/
theorem Inv.bytesRx_of_idle {s : State} (h : Inv s) (hidle : s.push = .idle) :
    s.bytesRx = .ofNat s.accepted.length + s.overflow := by
  rw [h.bytesRx, h.overflow, hidle, h.log, ← UInt32.ofNat_add]
  rfl

/-- What it means that the ring is a FIFO queue with room for `GNSS_RING_SIZE - 1` bytes. -/
structure IsFifo (s : State) : Prop where
  head_lt : s.head < gnssRingSize
  tail_lt : s.tail < gnssRingSize
  /-- The bytes popped are a prefix of those accepted, and the rest is in the ring. -/
  accepted_eq : s.accepted = s.popped ++ s.contents
  length_contents_le : s.contents.length ≤ gnssRingSize - 1
  /-- A pop loads a byte that was accepted and not yet popped. -/
  load : s.pop = .load → s.accepted[s.popped.length]? = some (s.ring s.tail)
  /-- A push is refused only by a ring that was full when the push read `gnss_tail`. -/
  full_of_refused : ∀ n ∈ s.heldAtRefusal, n = gnssRingSize - 1
  /-- One entry of `heldAtRefusal` for each refused push. -/
  refused : s.heldAtRefusal.length = s.log.countP fun p => !p.2
  bytesRx : s.push = .idle →
    s.bytesRx = .ofNat s.accepted.length + s.overflow ∧ s.bytesRx = .ofNat s.log.length

theorem length_acceptedBytes (log : List (UInt8 × Bool)) :
    (acceptedBytes log).length = log.countP fun p => p.2 := by
  induction log with
  | nil => rfl
  | cons p log ih =>
    obtain ⟨c, ok⟩ := p
    cases ok <;> simpa [acceptedBytes] using ih

theorem Inv.isFifo {s : State} (h : Inv s) : IsFifo s where
  head_lt := h.head ▸ Nat.mod_lt _ (by decide)
  tail_lt := h.tail ▸ Nat.mod_lt _ (by decide)
  accepted_eq := h.contents_eq ▸ h.fifo
  length_contents_le := h.length_contents_le
  load := h.load_eq
  full_of_refused := h.heldAtRefusal
  refused := by
    have hlog := h.log
    rw [State.accepted, length_acceptedBytes, List.length_eq_countP_add_countP fun p => p.2] at hlog
    simpa using (Nat.add_left_cancel hlog).symm
  bytesRx hidle := ⟨h.bytesRx_of_idle hidle, by rw [h.bytesRx, hidle]; rfl⟩

/-- **The ring refines a bounded FIFO queue.** For every interleaving of the interrupt's pushes
and core 1's pops, in every state reached: the indices are in range, the bytes popped are a prefix
of the bytes accepted and the rest is in the ring, no pop loads a slot that was not written, a push
is refused only by a full ring, and between two interrupts `gnss_bytes_rx` counts the bytes accepted
and refused. -/
theorem refinesFifo {as : List Act} {s : State} (h : Machine.run step {} as = some s) :
    IsFifo s :=
  (inv_run h).isFifo

/-- A push that is not interrupted. -/
def pushOf (c : UInt8) : List Act := [.irq c, .push, .push, .push, .push, .push]

/-- A push that finds room. -/
theorem run_pushOf {s : State} (hidle : s.push = .idle)
    (hroom : (s.head + 1) % gnssRingSize % 2 ^ 16 ≠ s.tail) (c : UInt8) :
    Machine.run step s (pushOf c) =
      some
        { s with
          ring := Function.update s.ring s.head c
          head := (s.head + 1) % gnssRingSize % 2 ^ 16
          bytesRx := s.bytesRx + 1
          log := s.log ++ [(c, true)] } := by
  obtain ⟨ring, head, tail, overflow, bytesRx, push, pop, log, held, popped⟩ := s
  obtain rfl : push = .idle := hidle
  simp only [pushOf, Machine.run_cons, Machine.run_nil, step, pushStep, Option.bind_some,
    if_neg hroom]

/-- The ring takes `GNSS_RING_SIZE - 1` bytes. -/
theorem exists_filled (cs : List UInt8) (h : cs.length ≤ gnssRingSize - 1) :
    ∃ ring bytesRx, Machine.run step {} (cs.flatMap pushOf) =
      some { ring, head := cs.length, bytesRx, log := cs.map (·, true) } := by
  induction cs using List.reverseRecOn with
  | nil => exact ⟨_, _, rfl⟩
  | append_singleton cs c ih =>
    rw [List.length_append, List.length_singleton] at h
    obtain ⟨ring, bytesRx, hrun⟩ := ih (Nat.le_of_succ_le h)
    have hhead : (cs.length + 1) % gnssRingSize % 2 ^ 16 = cs.length + 1 := by
      rw [Nat.mod_eq_of_lt (Nat.lt_of_le_of_lt h (by decide)), Nat.mod_eq_of_lt]
      exact Nat.lt_of_le_of_lt h (by decide)
    refine ⟨Function.update ring cs.length c, bytesRx + 1, ?_⟩
    rw [List.flatMap_append, List.flatMap_singleton, Machine.run_append, hrun, Option.bind_some,
      run_pushOf rfl (by rw [hhead]; exact Nat.succ_ne_zero _), hhead, List.map_append,
      List.length_append]
    rfl

theorem acceptedBytes_filled (cs : List UInt8) (log : List (UInt8 × Bool)) :
    acceptedBytes (cs.map (·, true) ++ log) = cs ++ acceptedBytes log := by
  rw [acceptedBytes, List.filterMap_append, List.filterMap_map]
  exact congrArg (· ++ _) (List.filterMap_some)

/-- A push reads `gnss_tail` while core 1 is inside a pop, and goes on when the pop has returned. -/
def overtakenPush : List Act :=
  [.popBegin, .pop, .irq 0x0A, .push, .push, .pop, .pop, .pop, .pop, .push]

/-- On a full ring such a push is refused although the pop has made room. -/
theorem run_overtakenPush (ring : ℕ → UInt8) (bytesRx : UInt32) (log : List (UInt8 × Bool)) :
    Machine.run step { ring, head := 4095, bytesRx, log } overtakenPush =
      some
        { ring, head := 4095, tail := 1, overflow := 1, bytesRx := bytesRx + 1,
          log := log ++ [(0x0A, false)],
          heldAtRefusal := [({ ring, head := 4095 } : State).contents.length],
          popped := [ring 0] } := by
  have hnext : (4095 + 1) % gnssRingSize % 2 ^ 16 = 0 := rfl
  have hempty : 0 ≠ 4095 := by decide
  simp only [overtakenPush, Machine.run_cons, Machine.run_nil, step, popStep, pushStep,
    Option.bind_some, hnext, if_neg hempty, ↓reduceIte]
  rfl

/-- The ring is filled before, and another push takes the last slot. Then `gnss_head` starts again
at `0`. -/
def fullSchedule : List Act :=
  (List.replicate 4095 0x24).flatMap pushOf ++ (overtakenPush ++ pushOf 0x0D)

theorem refinesFifo_full :
    ∃ s, Machine.run step {} fullSchedule = some s ∧
      s.accepted = List.replicate 4095 0x24 ++ [0x0D] ∧ s.popped = [0x24] ∧ s.overflow = 1 ∧
      s.head = 0 ∧ s.tail = 1 ∧ IsFifo s := by
  obtain ⟨ring, bytesRx, hfilled⟩ := exists_filled (List.replicate 4095 0x24)
    (by rw [List.length_replicate]; decide)
  rw [List.length_replicate] at hfilled
  have hrefused := run_overtakenPush ring bytesRx ((List.replicate 4095 0x24).map (·, true))
  have hroom : (4095 + 1) % gnssRingSize % 2 ^ 16 ≠ 1 := by decide
  obtain ⟨s, hrun, hlog, hpopped, hoverflow, hhead, htail⟩ : ∃ s,
      Machine.run step {} fullSchedule = some s ∧
        s.log = (List.replicate 4095 0x24).map (·, true) ++ [(0x0A, false), (0x0D, true)] ∧
        s.popped = [ring 0] ∧ s.overflow = 1 ∧ s.head = 0 ∧ s.tail = 1 := by
    rw [fullSchedule, Machine.run_append, hfilled, Option.bind_some, Machine.run_append, hrefused,
      Option.bind_some, run_pushOf rfl hroom]
    have hnext : (4095 + 1) % gnssRingSize % 2 ^ 16 = 0 := rfl
    exact ⟨_, rfl, List.append_assoc .., rfl, rfl, hnext, rfl⟩
  have hfifo := refinesFifo hrun
  have haccepted : s.accepted = List.replicate 4095 0x24 ++ [0x0D] := by
    rw [State.accepted, hlog, acceptedBytes_filled]
    rfl
  have hfirst := hfifo.accepted_eq
  rw [haccepted, hpopped, List.replicate_succ] at hfirst
  obtain ⟨hfirst, -⟩ := List.cons.inj hfirst
  exact ⟨s, hrun, haccepted, by rw [hpopped, ← hfirst], hoverflow, hhead, htail, hfifo⟩

end PicoUros.Gnss.Ring
