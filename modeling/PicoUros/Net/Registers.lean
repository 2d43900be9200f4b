import PicoUros.Net.Read

/-!
# The UDP read, register access by register access

`Sn_RX_RSR` has two bytes, and the driver reads them one after the other. `getSn_RX_RSR` repeats
this until it gets one value twice (`w6100.c`, lines 220–230). Its first value is compared with `0`,
so a first value of `0` is taken at once. A datagram that arrives between the reads of the two bytes
can make this value differ from the register at either time.

Here a step of the driver goes up to its next access to the chip or the clock, and the chip may
change between any two of them: the status of the socket is arbitrary, and the size of the received
data grows, or falls by a command `RECV` of the driver.

## Main definitions

* `RsrRead`, `RsrRead.next`: the progress of `getSn_RX_RSR`.
* `BusState`, `BusAct`, `busStep`: the machine, with a record of the passes of the waiting loop.
* `BusInv`: the invariant.

## Main results

* `busInv_step`: the invariant is kept.
* `exists_busRun_of_step`: a step with an undivided test of the register is a run of this machine.
-/

namespace PicoUros.Net

/-! ### Two reads of a byte -/

/-- Where `getSn_RX_RSR` is: in front of the high byte, with the value before; in front of the low
byte; or at its end, with the result. -/
inductive RsrRead where
  | high (val : ℕ)
  | low (prevVal hi : ℕ)
  | done (val : ℕ)
  deriving DecidableEq

/-- `getSn_RX_RSR` is entered. -/
def RsrRead.start : RsrRead := .high 0

/-- The next byte is read, the register being `rsr`. -/
def RsrRead.next (rsr : ℕ) : RsrRead → RsrRead
  | .high val => .low val (rsr / 256)
  | .low prevVal hi =>
    let val := hi * 256 + rsr % 256
    if val = prevVal then .done val else .high val
  | .done val => .done val

/-! ### The driver -/

namespace State

variable (s : State)

/-- The rest of `State.poll`, when the first read of `Sn_RX_RSR` has given `rsr`. -/
def pollWith (rsr : ℕ) (c : Call) : State :=
  if rsr = 0 then
    match c.tEnd with
    | none => s.udpReturn c s.pos [] 0
    | some _ => { s with pc := .sleep c (s.now + 1000) }
  else if c.len16 = 0 then s.recvfromReturn c s.pos sockerrDatalen []
  else if s.remained = 0 then { s with pc := .wait c }
  else { s with pc := .head c }

/-- The rest of a pass of the waiting loop, when its read of `Sn_RX_RSR` has given `rsr`. -/
def waitWith (rsr : ℕ) (c : Call) : State :=
  if s.chip.sr = sockClosed then s.recvfromReturn c s.pos sockerrSockclosed []
  else if rsr ≠ 0 then { s with packInfo := packNone, pc := .head c }
  else if s.ioMode then s.recvfromReturn c s.pos sockBusy []
  else s

theorem pollWith_rsr (c : Call) : s.pollWith s.chip.rsr c = s.poll c := rfl

theorem waitWith_rsr (c : Call) : s.waitWith s.chip.rsr c = s.wait c := rfl

end State

/-- The driver between two accesses. `recvfroms` counts the calls of `recvfrom` in the last call of
`wiz_uros_udp_read`, `passes` the finished passes of the waiting loop in the last call of
`recvfrom`, and `tears` how often in these passes the low byte of a positive `Sn_RX_RSR` was `0`
after the high byte had been read as `0`. -/
structure BusState where
  drv : State
  reading : RsrRead := .start
  timeout : ℤ := 0
  recvfroms : ℕ := 0
  passes : ℕ := 0
  tears : ℕ := 0

namespace BusState

variable (b : BusState)

/-- The low byte is about to be read as `0`, as the high byte was, of a register that is not `0`. -/
def Torn : Prop :=
  match b.reading with
  | .low _ hi => hi = 0 ∧ b.drv.chip.rsr % 256 = 0 ∧ b.drv.chip.rsr ≠ 0
  | _ => False

instance : Decidable b.Torn := by
  unfold Torn
  split <;> infer_instance

/-- A step of the driver. -/
def run (memory : ℕ → UInt8) : Option BusState :=
  match b.drv.pc, b.reading with
  | .poll c, .done rsr =>
    some
      { b with
        drv := b.drv.pollWith rsr c
        reading := .start
        recvfroms := if rsr = 0 then b.recvfroms else b.recvfroms + 1
        passes := 0
        tears := 0 }
  | .poll _, r => some { b with reading := r.next b.drv.chip.rsr }
  | .wait c, .done rsr =>
    some { b with drv := b.drv.waitWith rsr c, reading := .start, passes := b.passes + 1 }
  | .wait _, r =>
    some
      { b with
        reading := r.next b.drv.chip.rsr
        tears := if b.Torn then b.tears + 1 else b.tears }
  | _, _ => (b.drv.run memory).map fun t => { b with drv := t }

end BusState

/-- `chip` replaces the chip and the record of the datagrams that it has stored, `tick` advances the
clock, `read` is a call of `wiz_uros_udp_read`, and `run` is a step of the driver. -/
inductive BusAct where
  | chip (chip : Chip) (accepted : List Datagram)
  | tick (us : ℕ)
  | read (len : ℕ) (timeout : ℤ)
  | run (memory : ℕ → UInt8)

/-- `Sn_RX_RSR` is a register of 16 bits, and only `RECV` makes it smaller. -/
def busStep (b : BusState) : BusAct → Option BusState
  | .chip chip accepted =>
    if b.drv.chip.rsr ≤ chip.rsr ∧ chip.rsr < 65536 then
      some { b with drv := { b.drv with chip, accepted } }
    else none
  | .tick us => some { b with drv := { b.drv with now := b.drv.now + us } }
  | .read len timeout =>
    match b.drv.pc with
    | .idle =>
      some { drv := b.drv.udpRead len timeout, timeout }
    | _ => none
  | .run memory => b.run memory

/-! ### What a step of the driver does -/

/-- The call that is in progress. -/
def Pc.call : Pc → Option Call
  | .idle => none
  | .clock c | .poll c | .wait c | .head c | .addr c _ | .port c _ | .data c | .sleep c _ => some c

theorem Call.len16_le (c : Call) : c.len16 ≤ c.len := Nat.mod_le _ _

/-- The statements of the loop around `recvfrom`. -/
def Pc.Loops : Pc → Prop
  | .clock _ | .sleep _ _ => True
  | _ => False

/-- The place of a statement in the order in which a pass of that loop ends. -/
def Pc.rank : Pc → ℕ
  | .idle => 0
  | .clock _ => 1
  | .sleep _ _ => 2
  | .data _ => 3
  | .port _ _ => 4
  | .addr _ _ => 5
  | .head _ => 6
  | .wait _ => 7
  | .poll _ => 8

/-- The result is at most what was asked for, and there is no error if there is a result. -/
structure Return.Bounded (r : Return) : Prop where
  length_le : r.bytes.length ≤ r.len
  err : r.bytes ≠ [] → r.err = 0

/-- The call `c` returns. -/
structure State.Returns (s t : State) (c : Call) : Prop where
  pc : t.pc = .idle
  now : t.now = s.now
  returns : ∃ r, t.returns = s.returns ++ [r] ∧ r.len = c.len ∧ r.Bounded

/-- The call `c` goes on, towards the end of a pass. -/
structure State.GoesOn (s t : State) (c : Call) : Prop where
  call : t.pc.call = some c
  returns : t.returns = s.returns
  now : t.now = s.now
  rank : t.pc.rank < s.pc.rank
  loops : t.pc.Loops → c.tEnd ≠ none

namespace State

variable {s t : State} {c : Call}

theorem returns_udpReturn (pos : ℕ) {bytes : List UInt8} {err : UInt8}
    (hlen : bytes.length ≤ c.len) (herr : bytes ≠ [] → err = 0) :
    s.Returns (s.udpReturn c pos bytes err) c where
  pc := rfl
  now := rfl
  returns := ⟨_, rfl, rfl, hlen, herr⟩

/-- A call of `recvfrom` ends the call, or the pass of the loop. -/
theorem recvfromReturn_cases (hrank : 2 < s.pc.rank) (pos : ℕ) {r : ℤ} {bytes : List UInt8}
    (hlen : bytes.length ≤ c.len) :
    s.Returns (s.recvfromReturn c pos r bytes) c ∨ s.GoesOn (s.recvfromReturn c pos r bytes) c := by
  unfold recvfromReturn
  split_ifs with hr
  · exact .inl (returns_udpReturn pos hlen fun _ => rfl)
  · cases hend : c.tEnd with
    | none => exact .inl (returns_udpReturn pos (Nat.zero_le _) fun h => (h rfl).elim)
    | some T =>
      exact .inr
        { call := rfl
          returns := rfl
          now := rfl
          rank := hrank
          loops := fun _ h => by simp [hend] at h }

theorem pollWith_cases (hpc : s.pc = .poll c) (rsr : ℕ) :
    (s.Returns (s.pollWith rsr c) c ∨ s.GoesOn (s.pollWith rsr c) c) := by
  have hrank : 2 < s.pc.rank := by simp [hpc, Pc.rank]
  unfold pollWith
  split_ifs with hrsr hlen hremained
  · cases hend : c.tEnd with
    | none => exact .inl (returns_udpReturn _ (Nat.zero_le _) fun h => (h rfl).elim)
    | some T =>
      exact .inr
        { call := rfl
          returns := rfl
          now := rfl
          rank := hrank
          loops := fun _ h => by simp [hend] at h }
  · exact recvfromReturn_cases hrank _ (Nat.zero_le _)
  · exact .inr ⟨rfl, rfl, rfl, by simp [hpc, Pc.rank], nofun⟩
  · exact .inr ⟨rfl, rfl, rfl, by simp [hpc, Pc.rank], nofun⟩

/-- A pass of the waiting loop ends the loop, or it has read `0`. -/
theorem waitWith_cases (hpc : s.pc = .wait c) (rsr : ℕ) :
    (s.Returns (s.waitWith rsr c) c ∨ s.GoesOn (s.waitWith rsr c) c) ∨
      rsr = 0 ∧ s.waitWith rsr c = s := by
  have hrank : 2 < s.pc.rank := by simp [hpc, Pc.rank]
  unfold waitWith
  split_ifs with hsr hrsr hmode
  · exact .inl (recvfromReturn_cases hrank _ (Nat.zero_le _))
  · exact .inl (.inr ⟨rfl, rfl, rfl, by simp [hpc, Pc.rank], nofun⟩)
  · exact .inl (recvfromReturn_cases hrank _ (Nat.zero_le _))
  · exact .inr ⟨by simpa using hrsr, rfl⟩

@[simp] theorem chip_recvfromReturn (pos : ℕ) (r : ℤ) (bytes : List UInt8) :
    (s.recvfromReturn c pos r bytes).chip = s.chip := by
  unfold recvfromReturn
  split_ifs
  · rfl
  · cases c.tEnd <;> rfl

@[simp] theorem chip_pollWith (rsr : ℕ) : (s.pollWith rsr c).chip = s.chip := by
  unfold pollWith
  split_ifs
  · cases c.tEnd <;> rfl
  · exact chip_recvfromReturn _ _ _
  · rfl
  · rfl

@[simp] theorem chip_waitWith (rsr : ℕ) : (s.waitWith rsr c).chip = s.chip := by
  unfold waitWith
  split_ifs
  · exact chip_recvfromReturn _ _ _
  · rfl
  · exact chip_recvfromReturn _ _ _
  · rfl

/-- How a call begins. -/
theorem udpRead_cases (s : State) (len : ℕ) (timeout : ℤ) :
    s.udpRead len timeout = s.udpReturn ⟨len, none⟩ s.pos [] 1 ∨
      (timeout = 0 ∧ s.udpRead len timeout = { s with pc := .poll ⟨len, none⟩ }) ∨
      (timeout ≠ 0 ∧ ∃ T, s.udpRead len timeout = { s with pc := .clock ⟨len, some T⟩ }) := by
  unfold udpRead
  by_cases hopened : s.opened = true
  · rw [if_neg (by simpa using hopened)]
    by_cases hzero : timeout = 0
    · exact .inr (.inl ⟨hzero, by simp [hzero]⟩)
    · have hms : (if timeout < 0 then 10 else timeout.toNat) ≠ 0 := by
        split_ifs <;> omega
      exact .inr (.inr ⟨hzero, _, if_neg hms⟩)
  · rw [if_pos (by simpa using hopened)]
    exact .inl rfl

/-- The end of `recvfrom`. The payload is cut to the room that the caller has. -/
theorem data_cases (hpc : s.pc = .data c) (memory : ℕ → UInt8) :
    s.Returns (s.data memory c) c ∨ s.GoesOn (s.data memory c) c := by
  obtain ⟨n, hn⟩ : ∃ n, n = if c.len16 < s.remained then c.len16 else s.remained := ⟨_, rfl⟩
  have hlen : (s.chip.receive memory n).1.length ≤ c.len := by
    have hle := c.len16_le
    rw [Chip.length_receive, hn]
    split_ifs <;> omega
  obtain ⟨u, hu⟩ : ∃ u : State, u = { s with
      chip := (s.chip.receive memory n).2
      remained := s.remained - n
      packInfo := s.packInfo ||| (if s.remained - n ≠ 0 then packRemained else packCompleted) } :=
    ⟨_, rfl⟩
  have hdata : s.data memory c = u.recvfromReturn c s.pos n (s.chip.receive memory n).1 := by
    subst hn hu
    rfl
  have hrank : 2 < u.pc.rank := by simp [hu, hpc, Pc.rank]
  rw [hdata]
  rcases recvfromReturn_cases hrank s.pos hlen (r := n) with h | h
  · exact .inl ⟨h.pc, by simpa [hu] using h.now, by simpa [hu] using h.returns⟩
  · exact .inr ⟨h.call, by simpa [hu] using h.returns, by simpa [hu] using h.now,
      by simpa [hu] using h.rank, h.loops⟩

/-- A step from a statement that reads no register `Sn_RX_RSR`. -/
theorem run_cases {memory : ℕ → UInt8} (hrun : s.run memory = some t) (hcall : s.pc.call = some c)
    (hpoll : s.pc ≠ .poll c) (hwait : s.pc ≠ .wait c) (hloops : s.pc.Loops → c.tEnd ≠ none) :
    (s.Returns t c ∨ s.GoesOn t c) ∨
      ∃ T, c.tEnd = some T ∧ s.now < T ∧ s.pc = .clock c ∧ t = { s with pc := .poll c } := by
  cases hpc : s.pc <;> simp only [hpc, Pc.call, Option.some.injEq, reduceCtorEq] at hcall
  all_goals subst hcall
  all_goals simp only [run, hpc, Option.some.injEq] at hrun
  case clock c =>
    subst hrun
    cases hend : c.tEnd with
    | none => exact (hloops (by rw [hpc]; exact trivial) hend).elim
    | some T =>
      unfold clock
      by_cases hlt : s.now < T
      · exact .inr ⟨T, rfl, hlt, rfl, by simp [hend, hlt]⟩
      · rw [if_neg (by simpa [hend] using hlt)]
        exact .inl (.inl (returns_udpReturn _ (Nat.zero_le _) fun h => (h rfl).elim))
  case poll c => exact (hpoll hpc).elim
  case wait c => exact (hwait hpc).elim
  case head c =>
    subst hrun
    exact .inl (.inr ⟨rfl, rfl, rfl, by simp [hpc, State.head, Pc.rank], nofun⟩)
  case addr c n =>
    subst hrun
    exact .inl (.inr ⟨rfl, rfl, rfl, by simp [hpc, State.addr, Pc.rank], nofun⟩)
  case port c n =>
    subst hrun
    exact .inl (.inr ⟨rfl, rfl, rfl, by simp [hpc, State.port, Pc.rank], nofun⟩)
  case data c =>
    subst hrun
    exact .inl (data_cases hpc memory)
  case sleep c wakeAt =>
    by_cases hwake : wakeAt ≤ s.now
    · rw [if_pos hwake, Option.some.injEq] at hrun
      subst hrun
      refine .inl (.inr ⟨rfl, rfl, rfl, by simp [hpc, Pc.rank], fun _ => hloops ?_⟩)
      rw [hpc]
      exact trivial
    · simp [hwake] at hrun

theorem rsr_receive_le (chip : Chip) (memory : ℕ → UInt8) (len : ℕ) :
    (chip.receive memory len).2.rsr ≤ chip.rsr := by
  simp [Chip.receive, Chip.recvData, Chip.recv, Chip.rsr]

/-- `RECV` makes `Sn_RX_RSR` smaller. -/
theorem rsr_run_le {memory : ℕ → UInt8} (hrun : s.run memory = some t)
    (hpoll : ∀ c, s.pc ≠ .poll c) (hwait : ∀ c, s.pc ≠ .wait c) : t.chip.rsr ≤ s.chip.rsr := by
  cases hpc : s.pc <;> simp only [run, hpc, Option.some.injEq, reduceCtorEq] at hrun
  case clock c =>
    subst hrun
    unfold clock
    split_ifs <;> exact le_rfl
  case poll c => exact (hpoll c hpc).elim
  case wait c => exact (hwait c hpc).elim
  case head c =>
    subst hrun
    exact rsr_receive_le _ memory _
  case addr c n =>
    subst hrun
    exact rsr_receive_le _ memory _
  case port c n =>
    subst hrun
    exact rsr_receive_le _ memory _
  case data c =>
    subst hrun
    simp only [data, chip_recvfromReturn]
    exact rsr_receive_le _ memory _
  case sleep c wakeAt =>
    by_cases hwake : wakeAt ≤ s.now
    · rw [if_pos hwake, Option.some.injEq] at hrun
      subst hrun
      exact le_rfl
    · simp [hwake] at hrun

end State

/-! ### The invariant -/

/-- A statement that begins with a read of `Sn_RX_RSR`. -/
def Pc.Reads : Pc → Prop
  | .poll _ | .wait _ => True
  | _ => False

theorem Pc.reads_iff {pc : Pc} : pc.Reads ↔ (∃ c, pc = .poll c) ∨ ∃ c, pc = .wait c := by
  cases pc <;> simp [Pc.Reads]

/-- What `getSn_RX_RSR` knows about the register while nobody makes it smaller. -/
def RsrRead.Holds (rsr : ℕ) : RsrRead → Prop
  | .high _ => True
  | .low _ hi => hi ≤ rsr / 256
  | .done val => val ≠ 0 → 0 < rsr

/-- The invariant of the waiting loop. A torn read of `0` leaves a register of at least `256`, whose
high byte is not `0` from then on. -/
structure WaitInv (b : BusState) : Prop where
  pos : 0 < b.drv.chip.rsr
  passes_le : b.passes ≤ b.tears
  torn : b.tears ≠ 0 → 256 ≤ b.drv.chip.rsr ∧ ∀ p hi, b.reading = .low p hi → hi ≠ 0
  zero : b.reading = .done 0 → b.tears = 1 ∧ b.passes = 0

structure BusInv (b : BusState) : Prop where
  rsr_lt : b.drv.chip.rsr < 65536
  reading : b.reading.Holds b.drv.chip.rsr
  start : ¬ b.drv.pc.Reads → b.reading = .start
  loops : ∀ c, b.drv.pc.call = some c → b.drv.pc.Loops → c.tEnd ≠ none
  wait : ∀ c, b.drv.pc = .wait c → WaitInv b
  tears_le : b.tears ≤ 1
  passes_le : b.passes ≤ 1 + b.tears
  single : b.timeout = 0 → b.recvfroms ≤ 1 ∧ (∀ c, b.drv.pc.call = some c → c.tEnd = none) ∧
    ∀ c, b.drv.pc = .poll c → b.recvfroms = 0
  returns : ∀ r ∈ b.drv.returns, r.Bounded

variable {rsr rsr' : ℕ} {r : RsrRead}

theorem RsrRead.Holds.mono (h : r.Holds rsr) (hle : rsr ≤ rsr') : r.Holds rsr' := by
  cases r with
  | high val => exact trivial
  | low p hi => exact h.trans (Nat.div_le_div_right hle)
  | done val => exact fun hval => (h hval).trans_le hle

theorem RsrRead.Holds.next (h : r.Holds rsr) : (r.next rsr).Holds rsr := by
  cases r with
  | high val => exact le_rfl
  | low p hi =>
    have hle : hi * 256 + rsr % 256 ≤ rsr := by
      have hhi : hi ≤ rsr / 256 := h
      omega
    simp only [RsrRead.next]
    split_ifs
    · intro hval
      omega
    · exact trivial
  | done val => exact h

theorem RsrRead.start_holds : RsrRead.start.Holds rsr := trivial

section Preservation

variable {b : BusState} {c : Call} {t : State}

theorem State.GoesOn.pc_ne_poll {s : State} (h : s.GoesOn t c) (c' : Call) : t.pc ≠ .poll c' := by
  intro hpc
  have hrank := h.rank
  rw [hpc] at hrank
  cases hs : s.pc <;> simp [hs, Pc.rank] at hrank

/-- A step that ends the read of the register keeps the invariant, the record of the waiting loop
apart. -/
theorem BusInv.of_step (h : BusInv b) (hcall : b.drv.pc.call = some c)
    (ht : b.drv.Returns t c ∨ b.drv.GoesOn t c) (hrsr : t.chip.rsr ≤ b.drv.chip.rsr)
    {n k l : ℕ} (hn : b.timeout = 0 → n ≤ 1) (hl : l ≤ 1) (hk : k ≤ 1 + l)
    (hwait : ∀ c', t.pc = .wait c' → WaitInv ⟨t, .start, b.timeout, n, k, l⟩) :
    BusInv ⟨t, .start, b.timeout, n, k, l⟩ where
  rsr_lt := hrsr.trans_lt h.rsr_lt
  reading := RsrRead.start_holds
  start _ := rfl
  loops c' hc' hloops := by
    rcases ht with hret | hon
    · simp [hret.pc, Pc.call] at hc'
    · rw [show c' = c from Option.some.inj (hc'.symm.trans hon.call)]
      exact hon.loops hloops
  wait := hwait
  tears_le := hl
  passes_le := hk
  single hzero := by
    refine ⟨hn hzero, fun c' hc' => ?_, fun c' hc' => ?_⟩
    · rcases ht with hret | hon
      · simp [hret.pc, Pc.call] at hc'
      · rw [show c' = c from Option.some.inj (hc'.symm.trans hon.call)]
        exact (h.single hzero).2.1 c hcall
    · rcases ht with hret | hon
      · simp [hret.pc] at hc'
      · exact (hon.pc_ne_poll c' hc').elim
  returns r hr := by
    rcases ht with hret | hon
    · obtain ⟨r', hr', -, hbounded⟩ := hret.returns
      rw [hr', List.mem_append, List.mem_singleton] at hr
      rcases hr with hr | rfl
      · exact h.returns r hr
      · exact hbounded
    · exact h.returns r (hon.returns ▸ hr)

theorem busInv_chip (h : BusInv b) {chip : Chip} (hle : b.drv.chip.rsr ≤ chip.rsr)
    (hlt : chip.rsr < 65536) (accepted : List Datagram) :
    BusInv { b with drv := { b.drv with chip, accepted } } where
  rsr_lt := hlt
  reading := h.reading.mono hle
  start := h.start
  loops := h.loops
  wait c hc :=
    { pos := (h.wait c hc).pos.trans_le hle
      passes_le := (h.wait c hc).passes_le
      torn := fun ht => ⟨((h.wait c hc).torn ht).1.trans hle, ((h.wait c hc).torn ht).2⟩
      zero := (h.wait c hc).zero }
  tears_le := h.tears_le
  passes_le := h.passes_le
  single := h.single
  returns := h.returns

theorem busInv_tick (h : BusInv b) (us : ℕ) :
    BusInv { b with drv := { b.drv with now := b.drv.now + us } } :=
  { h with wait := fun c hc => { h.wait c hc with } }

theorem busInv_read (h : BusInv b) (len : ℕ) (timeout : ℤ) :
    BusInv { drv := b.drv.udpRead len timeout, timeout } := by
  have hret : ∀ c, BusInv
      { drv := b.drv.udpReturn c b.drv.pos [] 1, timeout } := fun c =>
    { rsr_lt := h.rsr_lt
      reading := RsrRead.start_holds
      start := fun _ => rfl
      loops := nofun
      wait := nofun
      tears_le := Nat.zero_le _
      passes_le := Nat.zero_le _
      single := fun _ => ⟨Nat.zero_le _, nofun, nofun⟩
      returns := fun r hr => by
        rcases List.mem_append.mp hr with hr | hr
        · exact h.returns r hr
        · rw [List.mem_singleton] at hr
          subst hr
          exact ⟨Nat.zero_le _, fun h => (h rfl).elim⟩ }
  have hgo : ∀ pc : Pc, (∀ c, pc ≠ .wait c) → (∀ c, pc.call = some c → pc.Loops → c.tEnd ≠ none) →
      (timeout = 0 → ∀ c, pc.call = some c → c.tEnd = none) →
      BusInv { drv := { b.drv with pc }, timeout } := fun pc hwait hloops hzero =>
    { rsr_lt := h.rsr_lt
      reading := RsrRead.start_holds
      start := fun _ => rfl
      loops := hloops
      wait := fun c hc => (hwait c hc).elim
      tears_le := Nat.zero_le _
      passes_le := Nat.zero_le _
      single := fun ht => ⟨Nat.zero_le _, hzero ht, fun _ _ => rfl⟩
      returns := h.returns }
  rcases b.drv.udpRead_cases len timeout with heq | ⟨-, heq⟩ | ⟨htimeout, T, heq⟩ <;> rw [heq]
  · exact hret _
  · refine hgo _ nofun (fun c _ hl => False.elim hl) fun _ c hc => ?_
    cases hc
    rfl
  · refine hgo _ nofun (fun c hc _ => ?_) fun ht => (htimeout ht).elim
    cases hc
    exact Option.some_ne_none T

/-! What `BusState.run` does, for each kind of statement. -/

theorem BusState.run_poll_done (hpc : b.drv.pc = .poll c) (hr : b.reading = .done rsr)
    (memory : ℕ → UInt8) :
    b.run memory = some ⟨b.drv.pollWith rsr c, .start, b.timeout,
      if rsr = 0 then b.recvfroms else b.recvfroms + 1, 0, 0⟩ := by
  simp only [BusState.run, hpc, hr]

theorem BusState.run_poll_read (hpc : b.drv.pc = .poll c) (hr : ∀ val, b.reading ≠ .done val)
    (memory : ℕ → UInt8) :
    b.run memory = some { b with reading := b.reading.next b.drv.chip.rsr } := by
  cases hreading : b.reading with
  | done val => exact (hr val hreading).elim
  | high val | low p hi => simp only [BusState.run, hpc, hreading]

theorem BusState.run_wait_done (hpc : b.drv.pc = .wait c) (hr : b.reading = .done rsr)
    (memory : ℕ → UInt8) :
    b.run memory = some ⟨b.drv.waitWith rsr c, .start, b.timeout, b.recvfroms, b.passes + 1,
      b.tears⟩ := by
  simp only [BusState.run, hpc, hr]

theorem BusState.run_wait_read (hpc : b.drv.pc = .wait c) (hr : ∀ val, b.reading ≠ .done val)
    (memory : ℕ → UInt8) :
    b.run memory = some
      { b with
        reading := b.reading.next b.drv.chip.rsr
        tears := if b.Torn then b.tears + 1 else b.tears } := by
  cases hreading : b.reading with
  | done val => exact (hr val hreading).elim
  | high val | low p hi => simp only [BusState.run, hpc, hreading]

theorem BusState.run_of_not_reads (hpc : ¬ b.drv.pc.Reads) (memory : ℕ → UInt8) :
    b.run memory = (b.drv.run memory).map fun t => { b with drv := t } := by
  cases hpc' : b.drv.pc <;> first
    | exact (hpc (by rw [hpc']; exact trivial)).elim
    | simp only [BusState.run, hpc']

/-- A read that ends with `0` of a register that is not `0` is torn. -/
theorem torn_of_next_eq_done_zero (hr : ∀ val, b.reading ≠ .done val)
    (hpos : 0 < b.drv.chip.rsr) (h : b.reading.next b.drv.chip.rsr = .done 0) : b.Torn := by
  cases hreading : b.reading with
  | done val => exact (hr val hreading).elim
  | high val => simp [hreading, RsrRead.next] at h
  | low p hi =>
    simp only [hreading, RsrRead.next] at h
    split_ifs at h with hval
    simp only [RsrRead.done.injEq] at h
    simp only [BusState.Torn, hreading]
    omega

/-- The high byte of a register of at least `256` is not `0`. -/
theorem ne_zero_of_next_eq_low (hr : ∀ val, b.reading ≠ .done val) (hrsr : 256 ≤ b.drv.chip.rsr)
    {p hi : ℕ} (h : b.reading.next b.drv.chip.rsr = .low p hi) : hi ≠ 0 := by
  cases hreading : b.reading with
  | done val => exact (hr val hreading).elim
  | high val =>
    simp only [hreading, RsrRead.next, RsrRead.low.injEq] at h
    omega
  | low p' hi' =>
    simp only [hreading, RsrRead.next] at h
    split_ifs at h

/-- The first torn read of the waiting loop is the only one, and the register has a high byte. -/
theorem WaitInv.tears_eq_zero (h : WaitInv b) (htorn : b.Torn) :
    b.tears = 0 ∧ 256 ≤ b.drv.chip.rsr := by
  cases hreading : b.reading with
  | done val => simp [BusState.Torn, hreading] at htorn
  | high val => simp [BusState.Torn, hreading] at htorn
  | low p hi =>
    simp only [BusState.Torn, hreading] at htorn
    exact ⟨by_contra fun hne => (h.torn hne).2 p hi hreading htorn.1, by omega⟩

theorem busInv_wait_read (h : BusInv b) (hpc : b.drv.pc = .wait c)
    (hr : ∀ val, b.reading ≠ .done val) :
    BusInv
      { b with
        reading := b.reading.next b.drv.chip.rsr
        tears := if b.Torn then b.tears + 1 else b.tears } := by
  have hwait := h.wait c hpc
  have hle := h.passes_le
  have hlew := hwait.passes_le
  have hreads : b.drv.pc.Reads := Pc.reads_iff.mpr (.inr ⟨c, hpc⟩)
  have hnew : (if b.Torn then b.tears + 1 else b.tears) ≤ 1 ∧
      b.passes ≤ (if b.Torn then b.tears + 1 else b.tears) ∧
      ((if b.Torn then b.tears + 1 else b.tears) ≠ 0 → 256 ≤ b.drv.chip.rsr) := by
    have hle1 := h.tears_le
    split_ifs with htorn
    · obtain ⟨hzero, hrsr⟩ := hwait.tears_eq_zero htorn
      exact ⟨by omega, by omega, fun _ => hrsr⟩
    · exact ⟨hle1, hlew, fun hne => (hwait.torn hne).1⟩
  exact
    { rsr_lt := h.rsr_lt
      reading := h.reading.next
      start := fun hn => (hn hreads).elim
      loops := h.loops
      wait := fun _ _ =>
        { pos := hwait.pos
          passes_le := hnew.2.1
          torn := fun hne => ⟨hnew.2.2 hne, fun _ _ => ne_zero_of_next_eq_low hr (hnew.2.2 hne)⟩
          zero := fun hzero => by
            have htorn := torn_of_next_eq_done_zero hr hwait.pos hzero
            have htears := (hwait.tears_eq_zero htorn).1
            simp only [if_pos htorn]
            omega }
      tears_le := hnew.1
      passes_le := hnew.2.1.trans (Nat.le_add_left _ _)
      single := h.single
      returns := h.returns }

theorem busInv_wait_done (h : BusInv b) (hpc : b.drv.pc = .wait c) (hr : b.reading = .done rsr) :
    BusInv ⟨b.drv.waitWith rsr c, .start, b.timeout, b.recvfroms, b.passes + 1, b.tears⟩ := by
  have hwait := h.wait c hpc
  have hle := hwait.passes_le
  have hcall : b.drv.pc.call = some c := by rw [hpc]; rfl
  rcases State.waitWith_cases hpc rsr with hcases | ⟨rfl, heq⟩
  · refine h.of_step hcall hcases (by simp) (fun hz => (h.single hz).1) h.tears_le (by omega)
      fun c' hc' => ?_
    -- The loop is left.
    rcases hcases with hret | hon
    · simp [hret.pc] at hc'
    · have hrank := hon.rank
      simp [hc', hpc, Pc.rank] at hrank
  · obtain ⟨htears, hpasses⟩ := hwait.zero hr
    rw [heq]
    exact
      { h with
        reading := RsrRead.start_holds
        start := fun _ => rfl
        wait := fun _ _ =>
          { pos := hwait.pos
            passes_le := by simp only; omega
            torn := fun hne => ⟨(hwait.torn hne).1, nofun⟩
            zero := nofun }
        passes_le := by simp only; omega }

theorem busInv_poll_done (h : BusInv b) (hpc : b.drv.pc = .poll c) (hr : b.reading = .done rsr) :
    BusInv ⟨b.drv.pollWith rsr c, .start, b.timeout,
      if rsr = 0 then b.recvfroms else b.recvfroms + 1, 0, 0⟩ := by
  have hcall : b.drv.pc.call = some c := by rw [hpc]; rfl
  have hholds := h.reading
  rw [hr] at hholds
  refine h.of_step hcall (State.pollWith_cases hpc rsr) (by simp) (fun hz => ?_) (Nat.zero_le _)
    (Nat.zero_le _) fun c' hc' => ?_
  · have hnone := (h.single hz).2.2 c hpc
    split_ifs <;> omega
  · have hrsr : rsr ≠ 0 := by
      rintro rfl
      unfold State.pollWith at hc'
      rw [if_pos rfl] at hc'
      cases hend : c.tEnd <;> simp [hend, State.udpReturn] at hc'
    exact
      { pos := by simpa using hholds hrsr
        passes_le := Nat.zero_le _
        torn := fun hne => (hne rfl).elim
        zero := nofun }

theorem Pc.rank_le {pc : Pc} (h : ¬ pc.Reads) : pc.rank ≤ 6 := by
  cases pc <;> simp_all [Pc.rank, Pc.Reads]

theorem busInv_run_drv (h : BusInv b) (hreads : ¬ b.drv.pc.Reads) {memory : ℕ → UInt8}
    (hrun : b.drv.run memory = some t) : BusInv { b with drv := t } := by
  have hpoll : ∀ c, b.drv.pc ≠ .poll c := fun c hpc => hreads (Pc.reads_iff.mpr (.inl ⟨c, hpc⟩))
  have hwait : ∀ c, b.drv.pc ≠ .wait c := fun c hpc => hreads (Pc.reads_iff.mpr (.inr ⟨c, hpc⟩))
  have hrsr := State.rsr_run_le hrun hpoll hwait
  have hstart := h.start hreads
  have hb : { b with drv := t } =
      (⟨t, .start, b.timeout, b.recvfroms, b.passes, b.tears⟩ : BusState) := by
    rw [← hstart]
  obtain ⟨c, hcall⟩ : ∃ c, b.drv.pc.call = some c := by
    cases hpc : b.drv.pc <;> simp [State.run, hpc, Pc.call] at hrun ⊢
  rcases State.run_cases hrun hcall (hpoll c) (hwait c) (h.loops c hcall) with
    hcases | ⟨T, hend, -, hpc, rfl⟩
  · rw [hb]
    refine h.of_step hcall hcases hrsr (fun hz => (h.single hz).1) h.tears_le h.passes_le
      fun c' hc' => ?_
    rcases hcases with hret | hon
    · simp [hret.pc] at hc'
    · have hrank := hon.rank.trans_le (Pc.rank_le hreads)
      simp [hc', Pc.rank] at hrank
  · exact
      { h with
        start := fun hn => (hn trivial).elim
        loops := fun _ _ hl => hl.elim
        wait := nofun
        single := fun hz => by simp [(h.single hz).2.1 c hcall] at hend }

theorem busInv_run (h : BusInv b) {memory : ℕ → UInt8} {b' : BusState}
    (hrun : b.run memory = some b') : BusInv b' := by
  by_cases hreads : b.drv.pc.Reads
  · obtain ⟨c, hpc⟩ | ⟨c, hpc⟩ := Pc.reads_iff.mp hreads
    · by_cases hr : ∃ val, b.reading = .done val
      · obtain ⟨val, hr⟩ := hr
        rw [BusState.run_poll_done hpc hr, Option.some.injEq] at hrun
        subst hrun
        exact busInv_poll_done h hpc hr
      · rw [BusState.run_poll_read hpc (not_exists.mp hr), Option.some.injEq] at hrun
        subst hrun
        exact
          { h with
            reading := h.reading.next
            start := fun hn => (hn hreads).elim
            wait := fun c' hc' => by simp [hpc] at hc' }
    · by_cases hr : ∃ val, b.reading = .done val
      · obtain ⟨val, hr⟩ := hr
        rw [BusState.run_wait_done hpc hr, Option.some.injEq] at hrun
        subst hrun
        exact busInv_wait_done h hpc hr
      · rw [BusState.run_wait_read hpc (not_exists.mp hr), Option.some.injEq] at hrun
        subst hrun
        exact busInv_wait_read h hpc (not_exists.mp hr)
  · rw [BusState.run_of_not_reads hreads] at hrun
    obtain ⟨t, ht, rfl⟩ := Option.map_eq_some_iff.mp hrun
    exact busInv_run_drv h hreads ht

theorem busInv_step {act : BusAct} {b' : BusState} (h : BusInv b) (hst : busStep b act = some b') :
    BusInv b' := by
  cases act with
  | chip chip accepted =>
    simp only [busStep, Option.ite_none_right_eq_some, Option.some.injEq] at hst
    obtain ⟨⟨hle, hlt⟩, rfl⟩ := hst
    exact busInv_chip h hle hlt accepted
  | tick us =>
    simp only [busStep, Option.some.injEq] at hst
    subst hst
    exact busInv_tick h us
  | read len timeout =>
    cases hpc : b.drv.pc <;> simp only [busStep, hpc, Option.some.injEq, reduceCtorEq] at hst
    subst hst
    exact busInv_read h len timeout
  | run memory => exact busInv_run h hst

end Preservation

/-- No call is in progress and the record is empty. The variables of the driver and the contents of
the chip are what earlier calls have left. -/
structure BusState.AtRest (b : BusState) : Prop where
  pc : b.drv.pc = .idle
  rsr_lt : b.drv.chip.rsr < 65536
  reading : b.reading = .start
  recvfroms : b.recvfroms = 0
  passes : b.passes = 0
  tears : b.tears = 0
  returns : b.drv.returns = []

theorem BusState.AtRest.busInv {b : BusState} (h : b.AtRest) : BusInv b where
  rsr_lt := h.rsr_lt
  reading := h.reading ▸ RsrRead.start_holds
  start _ := h.reading
  loops c hc := by simp [h.pc, Pc.call] at hc
  wait c hc := by simp [h.pc] at hc
  tears_le := by simp [h.tears]
  passes_le := by simp [h.passes]
  single _ := by simp [h.recvfroms, h.pc, Pc.call]
  returns := by simp [h.returns]

theorem busInv_of_run {b b' : BusState} {as : List BusAct} (h : b.AtRest)
    (hrun : Machine.run busStep b as = some b') : BusInv b' :=
  Machine.inv_of_run (fun _ _ _ hinv hst => busInv_step hinv hst) h.busInv hrun

/-! ### Undivided tests -/

section Undivided

variable {b : BusState}

theorem run_read (hreads : b.drv.pc.Reads) (hr : ∀ val, b.reading ≠ .done val) (htorn : ¬ b.Torn)
    (memory : ℕ → UInt8) :
    b.run memory = some { b with reading := b.reading.next b.drv.chip.rsr } := by
  obtain ⟨c, hpc⟩ | ⟨c, hpc⟩ := Pc.reads_iff.mp hreads
  · exact BusState.run_poll_read hpc hr memory
  · rw [BusState.run_wait_read hpc hr memory, if_neg htorn]

/-- If the chip does not change, `getSn_RX_RSR` returns the register. -/
theorem exists_run_done (hreads : b.drv.pc.Reads) (hr : b.reading = .start)
    (memory : ℕ → UInt8) : ∃ n, Machine.run busStep b (List.replicate n (.run memory)) =
      some { b with reading := .done b.drv.chip.rsr } := by
  have hread : ∀ r : RsrRead, (∀ val, r ≠ .done val) →
      ¬ ({ b with reading := r } : BusState).Torn →
      ({ b with reading := r } : BusState).run memory =
        some { b with reading := r.next b.drv.chip.rsr } :=
    fun r hr ht => run_read (b := { b with reading := r }) hreads hr ht memory
  have hstart : b.run memory = some { b with reading := .low 0 (b.drv.chip.rsr / 256) } := by
    rw [run_read hreads (by simp [hr, RsrRead.start]) (by simp [BusState.Torn, hr, RsrRead.start]),
      hr]
    rfl
  have hhigh : ∀ val, ({ b with reading := .high val } : BusState).run memory =
      some { b with reading := .low val (b.drv.chip.rsr / 256) } := fun val =>
    hread _ (by simp) (by simp [BusState.Torn])
  have hlow : ∀ val, ({ b with reading := .low val (b.drv.chip.rsr / 256) } : BusState).run memory =
      some { b with
        reading := (if b.drv.chip.rsr = val then .done b.drv.chip.rsr
          else .high b.drv.chip.rsr : RsrRead) } := by
    intro val
    rw [hread _ (by simp) (by simp only [BusState.Torn]; omega)]
    simp only [RsrRead.next, Nat.div_add_mod']
  by_cases hzero : b.drv.chip.rsr = 0
  · refine ⟨2, ?_⟩
    simp only [List.replicate, Machine.run_cons, busStep, hstart, Option.bind_some, hlow,
      Machine.run_nil]
    rw [if_pos hzero]
  · refine ⟨4, ?_⟩
    simp only [List.replicate, Machine.run_cons, busStep, hstart, hhigh, Option.bind_some, hlow,
      Machine.run_nil, if_neg hzero, if_pos]

/-- When the register has been read, the rest of the test is that of the undivided one. -/
theorem exists_run_of_done {t : State} {memory : ℕ → UInt8} (h : b.drv.run memory = some t)
    (hreads : b.drv.pc.Reads) :
    ∃ b', ({ b with reading := .done b.drv.chip.rsr } : BusState).run memory = some b' ∧
      b'.drv = t ∧ b'.reading = .start := by
  obtain ⟨c, hpc⟩ | ⟨c, hpc⟩ := Pc.reads_iff.mp hreads
  · simp only [State.run, hpc, Option.some.injEq] at h
    have hdone := BusState.run_poll_done (b := { b with reading := .done b.drv.chip.rsr })
      hpc rfl memory
    exact ⟨_, hdone, (b.drv.pollWith_rsr c).trans h, rfl⟩
  · simp only [State.run, hpc, Option.some.injEq] at h
    have hdone := BusState.run_wait_done (b := { b with reading := .done b.drv.chip.rsr })
      hpc rfl memory
    exact ⟨_, hdone, (b.drv.waitWith_rsr c).trans h, rfl⟩

/-- **Undivided tests.** When the chip does not change between the accesses of a test, a step of the
machine with undivided tests is a run of this machine. -/
theorem exists_busRun_of_step {t : State} {act : Act} (h : step b.drv act = some t)
    (hrsr : b.drv.chip.rsr < 65536) (hr : b.reading = .start) :
    ∃ as b', Machine.run busStep b as = some b' ∧ b'.drv = t ∧ b'.reading = .start := by
  cases act with
  | arrive d =>
    simp only [step, Option.some.injEq] at h
    subst h
    unfold State.arrive
    split_ifs with hfits
    · have hlen : (b.drv.chip.store d).rsr = b.drv.chip.rsr + d.bytes.length := by
        simp [Chip.store, Chip.rsr]
      have hsize : rxBufferSize = 2048 := rfl
      refine ⟨[.chip (b.drv.chip.store d) (b.drv.accepted ++ [d])], { b with drv := { b.drv with
        chip := b.drv.chip.store d, accepted := b.drv.accepted ++ [d] } }, ?_, rfl, hr⟩
      rw [Machine.run_cons, busStep, if_pos (by omega)]
      rfl
    · exact ⟨[], b, rfl, rfl, hr⟩
  | tick us =>
    simp only [step, Option.some.injEq] at h
    subst h
    exact ⟨[.tick us], _, rfl, rfl, hr⟩
  | status sr =>
    simp only [step, Option.some.injEq] at h
    subst h
    refine ⟨[.chip { b.drv.chip with sr } b.drv.accepted], { b with drv := { b.drv with
      chip := { b.drv.chip with sr } } }, ?_, rfl, hr⟩
    rw [Machine.run_cons, busStep, if_pos ⟨le_rfl, hrsr⟩]
    rfl
  | read len timeout =>
    cases hpc : b.drv.pc <;> simp only [step, hpc, Option.some.injEq, reduceCtorEq] at h
    subst h
    refine ⟨[.read len timeout], { drv := b.drv.udpRead len timeout, timeout }, ?_, rfl, rfl⟩
    simp only [Machine.run_cons, busStep, hpc]
    rfl
  | run memory =>
    by_cases hreads : b.drv.pc.Reads
    · obtain ⟨n, hn⟩ := exists_run_done hreads hr memory
      obtain ⟨b', hb', hdrv, hreading⟩ := exists_run_of_done h hreads
      refine ⟨List.replicate n (.run memory) ++ [.run memory], b', ?_, hdrv, hreading⟩
      rw [Machine.run_append, hn, Option.bind_some, Machine.run_cons, busStep, hb']
      rfl
    · refine ⟨[.run memory], { b with drv := t }, ?_, rfl, hr⟩
      rw [Machine.run_cons, busStep, BusState.run_of_not_reads hreads,
        show b.drv.run memory = some t from h]
      rfl

end Undivided

end PicoUros.Net
