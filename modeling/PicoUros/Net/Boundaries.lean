import PicoUros.Lib.Blocks
import PicoUros.Net.Read
import Mathlib.Data.Fin.VecNotation

/-!
# The boundaries of datagrams

`recvfrom` keeps in `sock_remained_size` that a part of a datagram is still in the receive buffer,
but with `IPV6_AVAILABLE` it reads an info word in any case. After a read with too little room for
the payload, the next call of `recvfrom` takes payload bytes for an info word.

## Main definitions

* `Boundaries`: the info words that the driver reads are those of datagrams, the bytes that a read
  returns are bytes of the payload of one datagram, and no address is longer than four bytes.
* `Fits`: all calls of `recvfrom` have enough room, except for the last one.
* `Aligned`, `Broken`: the two kinds of states that are reached.

## Main results

* `inv_step`: what a step preserves.
* `boundaries_iff`: in every state reached, `Boundaries` holds exactly if `Fits` does.
* `oversized_not_boundaries`: a datagram that is read in two parts, and an address of 16 bytes.
-/

namespace PicoUros.Net

/-! ### The property and the condition -/

/-- `bytes` are bytes of the payload of one of the datagrams `l`, and their position is `p`. -/
def PayloadSlice (l : List Datagram) (p : ℕ) (bytes : List UInt8) : Prop :=
  ∃ pre d post a c, l = pre ++ d :: post ∧ d.payload = a ++ bytes ++ c ∧
    p = (pre.flatMap Datagram.bytes).length + 8 + a.length

variable (s : State)

structure Boundaries : Prop where
  headers : ∀ h ∈ s.headers, BlockStart Datagram.bytes s.accepted h.pos
  returns : ∀ r ∈ s.returns, r.bytes ≠ [] → PayloadSlice s.accepted r.pos r.bytes
  addresses : ∀ a ∈ s.addresses, a.length ≤ 4

/-- The first call of `recvfrom` that reads an info word has room for the payload of the first
datagram, the second one for that of the second, and so on up to the last call but one. -/
def Fits : Prop :=
  ∀ p ∈ s.headers.dropLast.zip s.accepted, p.2.payload.length ≤ p.1.len

instance : Decidable (Fits s) := inferInstanceAs (Decidable (∀ p ∈ _, _))

/-! ### The states reached -/

/-- The bytes of the last datagram read that the call had no room for. -/
def leftover (past : List Datagram) (headers : List Header) : List UInt8 :=
  match past.getLast?, headers.getLast? with
  | some d, some h => d.payload.drop h.len
  | _, _ => []

/-- Between two calls of `recvfrom`, `front` is what the last one has left. -/
structure Between (s : State) (past : List Datagram) (front : List UInt8) : Prop where
  eq_leftover : front = leftover past s.headers
  remained : s.remained = front.length

/-- In the call `c`, the next byte to read is byte number `n` of the datagram `d`. -/
structure Reading (s : State) (past : List Datagram) (front : List UInt8) (c : Call) (n : ℕ)
    (d : Datagram) : Prop where
  eq_drop : front = d.bytes.drop n
  past : past.getLast? = some d
  header : ∃ pos, s.headers.getLast? = some ⟨pos, c.len16⟩

def Phase (s : State) (past rest : List Datagram) (front : List UInt8) : Prop :=
  match s.pc with
  | .wait _ => Between s past front ∧ s.remained = 0
  | .head _ => Between s past front ∧ (s.remained = 0 → rest ≠ [])
  | .addr c n =>
    ∃ d, Reading s past front c 2 d ∧ n = d.payload.length ∧ s.packInfo &&& packIPv6 = 0
  | .port c n => ∃ d, Reading s past front c 6 d ∧ n = d.payload.length
  | .data c => ∃ d, Reading s past front c 8 d ∧ s.remained = d.payload.length
  | _ => Between s past front

/-- The datagrams `past` have been read, but for the bytes `front`, and `rest` follow. -/
structure Aligned (s : State) (past rest : List Datagram) (front : List UInt8) : Prop where
  accepted : s.accepted = past ++ rest
  rx : s.chip.rx = front ++ rest.flatMap Datagram.bytes
  rd : s.chip.rd = 0
  isSuffix : front <:+ past.flatMap Datagram.bytes
  length : s.headers.length = past.length
  fits : Fits s
  boundaries : Boundaries s

/-- An info word has been read in the middle of a datagram, for which a call had no room. -/
structure Broken (s : State) : Prop where
  inside : ∃ h ∈ s.headers, InsideBlock Datagram.bytes s.accepted h.pos
  not_fits : ¬ Fits s

def Inv (s : State) : Prop :=
  (∃ past rest front, Aligned s past rest front ∧ Phase s past rest front) ∨ Broken s

variable {s} {t : State} {past rest : List Datagram} {front : List UInt8}

theorem Broken.not_boundaries (h : Broken s) : ¬ Boundaries s := by
  intro hb
  obtain ⟨header, hmem, hinside⟩ := h.inside
  exact hinside.not_blockStart (hb.headers header hmem)

theorem inv_start : Inv .start := by
  refine .inl ⟨[], [], [], ?_, Between.mk rfl rfl⟩
  exact
    { accepted := rfl
      rx := rfl
      rd := rfl
      isSuffix := List.suffix_refl _
      length := rfl
      fits := fun _ h => absurd h List.not_mem_nil
      boundaries :=
        { headers := fun _ h => absurd h List.not_mem_nil
          returns := fun _ h => absurd h List.not_mem_nil
          addresses := fun _ h => absurd h List.not_mem_nil } }

theorem Inv.boundaries_iff_fits (h : Inv s) : Boundaries s ↔ Fits s := by
  rcases h with ⟨past, rest, front, h, -⟩ | h
  · exact iff_of_true h.boundaries h.fits
  · exact iff_of_false h.not_boundaries h.not_fits

/-! ### The record only grows -/

theorem PayloadSlice.append {l : List Datagram} {p : ℕ} {bytes : List UInt8}
    (h : PayloadSlice l p bytes) (l' : List Datagram) : PayloadSlice (l ++ l') p bytes := by
  obtain ⟨pre, d, post, a, c, rfl, hd, hp⟩ := h
  exact ⟨pre, d, post ++ l', a, c, by rw [List.append_assoc, List.cons_append], hd, hp⟩

theorem mem_zip_of_isPrefix {α β : Type*} {l l' : List α} {m m' : List β} {p : α × β}
    (hl : l <+: l') (hm : m <+: m') (h : p ∈ l.zip m) : p ∈ l'.zip m' := by
  obtain ⟨x, rfl⟩ := hl
  obtain ⟨y, rfl⟩ := hm
  obtain ⟨i, hi⟩ := List.mem_iff_getElem?.mp h
  obtain ⟨hl, hm⟩ := List.getElem?_zip_eq_some.mp hi
  refine List.mem_iff_getElem?.mpr ⟨i, List.getElem?_zip_eq_some.mpr ⟨?_, ?_⟩⟩
  · rw [List.getElem?_append_left (List.getElem?_eq_some_iff.mp hl).1, hl]
  · rw [List.getElem?_append_left (List.getElem?_eq_some_iff.mp hm).1, hm]

theorem dropLast_isPrefix {α : Type*} {l l' : List α} (h : l <+: l') :
    l.dropLast <+: l'.dropLast := by
  obtain ⟨x, rfl⟩ := h
  cases x with
  | nil => rw [List.append_nil]
  | cons a x =>
    rw [List.dropLast_append_of_ne_nil (List.cons_ne_nil a x)]
    exact (List.dropLast_prefix l).trans (List.prefix_append _ _)

/-- The record of `t` extends that of `s`. -/
structure Extends (s t : State) : Prop where
  headers : s.headers <+: t.headers
  accepted : s.accepted <+: t.accepted

theorem Extends.of_eq (hh : t.headers = s.headers) (ha : t.accepted = s.accepted) :
    Extends s t :=
  ⟨hh ▸ List.prefix_refl _, ha ▸ List.prefix_refl _⟩

theorem Broken.of_extends (h : Broken s) (ht : Extends s t) : Broken t := by
  obtain ⟨⟨header, hmem, hinside⟩, hnot⟩ := h
  refine ⟨⟨header, ht.headers.subset hmem, ?_⟩, fun hfits => hnot fun p hp => hfits p ?_⟩
  · obtain ⟨accepted, haccepted⟩ := ht.accepted
    rw [← haccepted]
    exact hinside.append accepted
  · exact mem_zip_of_isPrefix (dropLast_isPrefix ht.headers) ht.accepted hp

/-! ### Steps that read nothing -/

/-- What holds when a step that reads nothing leads to a place in the program. -/
def Enters (s : State) : Pc → Prop
  | .wait _ => s.remained = 0
  | .head _ => s.remained = 0 → s.chip.rx ≠ []
  | .addr _ _ => False
  | .port _ _ => False
  | .data _ => False
  | _ => True

/-- From `s` to `t` nothing is read. A call may have returned `bytes`. -/
structure Quiet (s t : State) (p : ℕ) (bytes : List UInt8) : Prop where
  chip : t.chip = s.chip
  remained : t.remained = s.remained
  accepted : t.accepted = s.accepted
  headers : t.headers = s.headers
  addresses : t.addresses = s.addresses
  returns : ∀ r ∈ t.returns, r ∈ s.returns ∨ (r.pos = p ∧ r.bytes = bytes) ∨ r.bytes = []
  pc : Enters t t.pc

variable {p : ℕ} {bytes : List UInt8}

theorem quiet_goto {pc : Pc} (h : Enters s pc) : Quiet s { s with pc := pc } p bytes :=
  ⟨rfl, rfl, rfl, rfl, rfl, fun _ hr => .inl hr, h⟩

theorem quiet_udpReturn (c : Call) (p : ℕ) (bytes : List UInt8) (err : UInt8) :
    Quiet s (s.udpReturn c p bytes err) p bytes := by
  refine ⟨rfl, rfl, rfl, rfl, rfl, fun r hr => ?_, trivial⟩
  rcases List.mem_append.mp hr with hr | hr
  · exact .inl hr
  · rw [List.mem_singleton.mp hr]
    exact .inr (.inl ⟨rfl, rfl⟩)

theorem quiet_recvfromReturn (c : Call) (p : ℕ) (r : ℤ) (bytes : List UInt8) :
    Quiet s (s.recvfromReturn c p r bytes) p bytes := by
  unfold State.recvfromReturn
  split
  · exact quiet_udpReturn c p bytes 0
  · split
    · refine { quiet_udpReturn (s := s) c p [] 0 with returns := fun r hr => ?_ }
      exact ((quiet_udpReturn c p [] 0).returns r hr).imp_right fun h => .inr (h.elim (·.2) id)
    · exact quiet_goto trivial

theorem quiet_udpRead (len : ℕ) (timeout : ℤ) : Quiet s (s.udpRead len timeout) s.pos [] := by
  simp only [State.udpRead]
  by_cases hopened : (!s.opened) = true
  · rw [if_pos hopened]
    exact quiet_udpReturn _ _ _ _
  · rw [if_neg hopened]
    generalize (if timeout < 0 then 10 else timeout.toNat) = toMs
    split <;> exact quiet_goto trivial

theorem quiet_clock (c : Call) : Quiet s (s.clock c) s.pos [] := by
  unfold State.clock
  split
  · exact quiet_goto trivial
  · exact quiet_udpReturn _ _ _ _

theorem quiet_poll (c : Call) : Quiet s (s.poll c) s.pos [] := by
  unfold State.poll
  split
  · split
    · exact quiet_udpReturn _ _ _ _
    · exact quiet_goto trivial
  · split
    · exact quiet_recvfromReturn _ _ _ _
    · split
      · next h => exact quiet_goto h
      · next h => exact quiet_goto fun h' => absurd h' h

theorem quiet_wait (c : Call) : s.wait c = s ∨ Quiet s (s.wait c) s.pos [] := by
  unfold State.wait
  split
  · exact .inr (quiet_recvfromReturn _ _ _ _)
  · split
    · next h =>
      exact .inr ⟨rfl, rfl, rfl, rfl, rfl, fun r hr => .inl hr,
        fun _ hrx => h (congrArg List.length hrx)⟩
    · split
      · exact .inr (quiet_recvfromReturn _ _ _ _)
      · exact .inl rfl

/-- **What a step of the driver does.** It reads nothing, or an info word, an address, a port or a
payload. -/
theorem run_cases {memory : ℕ → UInt8} (h : s.run memory = some t) :
    t = s ∨
      ((∀ past rest front, Phase s past rest front → Between s past front) ∧
        Quiet s t s.pos []) ∨
      (∃ c, s.pc = .head c ∧ t = s.head memory c) ∨
      (∃ c n, s.pc = .addr c n ∧ t = s.addr memory c n) ∨
      (∃ c n, s.pc = .port c n ∧ t = s.port memory c n) ∨
      ∃ c, s.pc = .data c ∧ t = s.data memory c := by
  cases hpc : s.pc with
  | idle => simp [State.run, hpc] at h
  | clock c =>
    simp only [State.run, hpc, Option.some.injEq] at h
    exact .inr (.inl ⟨fun _ _ _ hp => by simpa only [Phase, hpc] using hp, h ▸ quiet_clock c⟩)
  | poll c =>
    simp only [State.run, hpc, Option.some.injEq] at h
    exact .inr (.inl ⟨fun _ _ _ hp => by simpa only [Phase, hpc] using hp, h ▸ quiet_poll c⟩)
  | wait c =>
    simp only [State.run, hpc, Option.some.injEq] at h
    rcases quiet_wait (s := s) c with hw | hw
    · exact .inl (h.symm.trans hw)
    · refine .inr (.inl ⟨fun _ _ _ hp => ?_, h ▸ hw⟩)
      simp only [Phase, hpc] at hp
      exact hp.1
  | head c =>
    simp only [State.run, hpc, Option.some.injEq] at h
    exact .inr (.inr (.inl ⟨c, rfl, h.symm⟩))
  | addr c n =>
    simp only [State.run, hpc, Option.some.injEq] at h
    exact .inr (.inr (.inr (.inl ⟨c, n, rfl, h.symm⟩)))
  | port c n =>
    simp only [State.run, hpc, Option.some.injEq] at h
    exact .inr (.inr (.inr (.inr (.inl ⟨c, n, rfl, h.symm⟩))))
  | data c =>
    simp only [State.run, hpc, Option.some.injEq] at h
    exact .inr (.inr (.inr (.inr (.inr ⟨c, rfl, h.symm⟩))))
  | sleep c w =>
    simp only [State.run, hpc] at h
    split at h
    · cases h
      exact .inr (.inl ⟨fun _ _ _ hp => by simpa only [Phase, hpc] using hp, quiet_goto trivial⟩)
    · cases h

theorem Quiet.extends (h : Quiet s t p bytes) : Extends s t := .of_eq h.headers h.accepted

theorem Quiet.aligned (h : Aligned s past rest front) (hb : Between s past front)
    (hq : Quiet s t p bytes) (hbytes : bytes ≠ [] → PayloadSlice s.accepted p bytes) :
    Aligned t past rest front ∧ Phase t past rest front := by
  have hbt : Between t past front :=
    ⟨by rw [hq.headers]; exact hb.eq_leftover, hq.remained.trans hb.remained⟩
  constructor
  · exact
      { accepted := hq.accepted.trans h.accepted
        rx := by rw [hq.chip, h.rx]
        rd := by rw [hq.chip, h.rd]
        isSuffix := h.isSuffix
        length := by rw [hq.headers, h.length]
        fits := by rw [Fits, hq.headers, hq.accepted]; exact h.fits
        boundaries :=
          { headers := by rw [hq.headers, hq.accepted]; exact h.boundaries.headers
            addresses := by rw [hq.addresses]; exact h.boundaries.addresses
            returns := fun r hr hne => by
              rw [hq.accepted]
              rcases hq.returns r hr with hr | ⟨rfl, rfl⟩ | hr
              · exact h.boundaries.returns r hr hne
              · exact hbytes hne
              · exact absurd hr hne } }
  · have hpc := hq.pc
    unfold Phase
    cases hpct : t.pc with
    | wait c => exact ⟨hbt, by rwa [hpct] at hpc⟩
    | head c =>
      rw [hpct] at hpc
      refine ⟨hbt, fun hrem hrest => hpc hrem ?_⟩
      have hfront : front = [] := List.length_eq_zero_iff.mp (hbt.remained.symm.trans hrem)
      rw [hq.chip, h.rx, hfront, hrest]
      rfl
    | addr c n =>
      rw [hpct] at hpc
      exact hpc.elim
    | port c n =>
      rw [hpct] at hpc
      exact hpc.elim
    | data c =>
      rw [hpct] at hpc
      exact hpc.elim
    | _ => exact hbt

/-! ### Reads -/

/-- The position of the next byte, from the end of what has been read. -/
theorem Aligned.pos_add (h : Aligned s past rest front) :
    s.pos + front.length = (past.flatMap Datagram.bytes).length := by
  have hle := h.isSuffix.length_le
  rw [State.pos, h.accepted, h.rx, List.flatMap_append, List.length_append, List.length_append]
  omega

theorem zip_concat {hs : List Header} {h : Header} {ds : List Datagram} {d : Datagram}
    (hlen : (hs ++ [h]).length = (ds ++ [d]).length) (rest : List Datagram) :
    (hs ++ [h]).zip (ds ++ [d] ++ rest) = hs.zip ds ++ [(h, d)] := by
  have hlen : hs.length = ds.length := by simpa using hlen
  rw [List.append_assoc, List.zip_append hlen]
  rfl

/-- If the last call has left nothing, it had enough room too. -/
theorem Aligned.fits_all (h : Aligned s past rest []) (hb : Between s past []) :
    ∀ p ∈ s.headers.zip s.accepted, p.2.payload.length ≤ p.1.len := by
  have hfits := h.fits
  have hlength := h.length
  have hleft := hb.eq_leftover
  rw [Fits, h.accepted] at hfits
  rw [h.accepted]
  rcases List.eq_nil_or_concat' s.headers with hnil | ⟨hs, header, hconcat⟩
  · rw [hnil]
    exact fun p hp => absurd hp List.not_mem_nil
  · rcases List.eq_nil_or_concat' past with rfl | ⟨ds, d, rfl⟩
    · simp [hconcat] at hlength
    · rw [hconcat] at hfits hlength hleft ⊢
      rw [zip_concat hlength]
      intro p hp
      rcases List.mem_append.mp hp with hp | hp
      · refine hfits p (mem_zip_of_isPrefix ?_ ?_ hp)
        · rw [List.dropLast_concat]
        · rw [List.append_assoc]
          exact List.prefix_append _ _
      · rw [List.mem_singleton.mp hp]
        exact List.drop_eq_nil_iff.mp (by simpa [leftover] using hleft.symm)

/-- The info word of the next datagram. -/
theorem aligned_head {memory : ℕ → UInt8} {c : Call} {d : Datagram}
    (h : Aligned s past (d :: rest) []) (hb : Between s past []) :
    Aligned (s.head memory c) (past ++ [d]) rest (d.bytes.drop 2) ∧
      Phase (s.head memory c) (past ++ [d]) rest (d.bytes.drop 2) := by
  have hpos : s.pos = (past.flatMap Datagram.bytes).length := h.pos_add
  have hrx : s.chip.rx = d.bytes ++ rest.flatMap Datagram.bytes := h.rx
  have hlen : 2 ≤ d.bytes.length := by
    rw [d.length_bytes]
    omega
  have hread := Chip.receive_eq hrx h.rd memory hlen
  constructor
  · exact
      { accepted := by rw [List.append_assoc]; exact h.accepted
        rx := by simp only [State.head, hread]
        rd := by simp only [State.head, hread]
        isSuffix := by
          rw [List.flatMap_append, List.flatMap_singleton]
          exact (List.drop_suffix _ _).trans (List.suffix_append _ _)
        length := by
          simp only [State.head, List.length_append, List.length_singleton, h.length]
        fits := by
          simp only [Fits, State.head, List.dropLast_concat]
          exact h.fits_all hb
        boundaries :=
          { headers := fun header hmem => by
              rcases List.mem_append.mp hmem with hmem | hmem
              · exact h.boundaries.headers header hmem
              · rw [List.mem_singleton.mp hmem]
                exact ⟨past, d, rest, h.accepted, hpos⟩
            returns := h.boundaries.returns
            addresses := h.boundaries.addresses } }
  · rw [State.head, hread]
    refine ⟨d, ⟨rfl, by simp, s.pos, by simp⟩, d.packLen_eq, d.packInfo_eq⟩

/-- An info word is read although a part of the last datagram is left. -/
theorem broken_head {memory : ℕ → UInt8} {c : Call} (h : Aligned s past rest front)
    (hb : Between s past front) (hremained : s.remained ≠ 0) : Broken (s.head memory c) := by
  have hpos := h.pos_add
  have hlength := h.length
  have hleft := hb.eq_leftover
  have hfront := hb.remained ▸ hremained
  rcases List.eq_nil_or_concat' s.headers with hnil | ⟨hs, header, hconcat⟩
  · simp [hleft, leftover, hnil] at hfront
  · rcases List.eq_nil_or_concat' past with rfl | ⟨ds, d, rfl⟩
    · simp [hconcat] at hlength
    · have hdrop : front = d.payload.drop header.len := by simpa [leftover, hconcat] using hleft
      have hlen : front.length = d.payload.length - header.len := by rw [hdrop, List.length_drop]
      rw [List.flatMap_append, List.length_append, List.flatMap_singleton, d.length_bytes] at hpos
      constructor
      · refine ⟨⟨s.pos, c.len16⟩, List.mem_append_right _ (List.mem_singleton_self _), ?_⟩
        refine ⟨ds, d, rest, by simp [State.head, h.accepted], ?_, ?_⟩
        · simp only
          omega
        · rw [d.length_bytes]
          simp only
          omega
      · intro hfits
        simp only [Fits, State.head, List.dropLast_concat, h.accepted, hconcat] at hfits
        rw [hconcat] at hlength
        rw [zip_concat hlength] at hfits
        have hle := hfits (header, d) (List.mem_append_right _ (List.mem_singleton_self _))
        simp only at hle
        omega

theorem aligned_addr {memory : ℕ → UInt8} {c : Call} {d : Datagram} {n : ℕ}
    (h : Aligned s past rest front) (hr : Reading s past front c 2 d)
    (hinfo : s.packInfo &&& packIPv6 = 0) :
    Aligned (s.addr memory c n) past rest (d.bytes.drop 6) ∧
      Reading (s.addr memory c n) past (d.bytes.drop 6) c 6 d := by
  obtain ⟨rfl, hpast, hheader⟩ := hr
  have hlen : 4 ≤ (d.bytes.drop 2).length := by
    rw [List.length_drop, d.length_bytes]
    omega
  have hread := Chip.receive_eq h.rx h.rd memory hlen
  rw [List.drop_drop] at hread
  simp only [State.addr, hinfo, ne_eq, not_true_eq_false, if_false, hread]
  refine ⟨?_, rfl, hpast, hheader⟩
  exact
    { accepted := h.accepted
      rx := rfl
      rd := rfl
      isSuffix := (List.drop_drop ▸ List.drop_suffix 4 (d.bytes.drop 2)).trans h.isSuffix
      length := h.length
      fits := h.fits
      boundaries :=
        { headers := h.boundaries.headers
          returns := h.boundaries.returns
          addresses := fun a ha => by
            rcases List.mem_append.mp ha with ha | ha
            · exact h.boundaries.addresses a ha
            · rw [List.mem_singleton.mp ha, List.length_take]
              exact Nat.min_le_left _ _ } }

theorem aligned_port {memory : ℕ → UInt8} {c : Call} {d : Datagram} {n : ℕ}
    (h : Aligned s past rest front) (hr : Reading s past front c 6 d) :
    Aligned (s.port memory c n) past rest (d.bytes.drop 8) ∧
      Reading (s.port memory c n) past (d.bytes.drop 8) c 8 d := by
  obtain ⟨rfl, hpast, hheader⟩ := hr
  have hlen : 2 ≤ (d.bytes.drop 6).length := by
    rw [List.length_drop, d.length_bytes]
    omega
  have hread := Chip.receive_eq h.rx h.rd memory hlen
  rw [List.drop_drop] at hread
  simp only [State.port, hread]
  refine ⟨?_, rfl, hpast, hheader⟩
  exact
    { accepted := h.accepted
      rx := rfl
      rd := rfl
      isSuffix := (List.drop_drop ▸ List.drop_suffix 2 (d.bytes.drop 6)).trans h.isSuffix
      length := h.length
      fits := h.fits
      boundaries := ⟨h.boundaries.headers, h.boundaries.returns, h.boundaries.addresses⟩ }

/-- The payload is read, as far as there is room. The rest is left over. -/
theorem aligned_data {memory : ℕ → UInt8} {c : Call} {d : Datagram}
    (h : Aligned s past rest front) (hr : Reading s past front c 8 d)
    (hremained : s.remained = d.payload.length) :
    Aligned (s.data memory c) past rest (d.payload.drop c.len16) ∧
      Phase (s.data memory c) past rest (d.payload.drop c.len16) := by
  obtain ⟨rfl, hpast, p, hheader⟩ := hr
  have hpos := h.pos_add
  have hrx := h.rx
  have hsuffix := h.isSuffix
  rw [d.drop_eight_bytes] at hpos hrx hsuffix
  obtain ⟨ds, rfl⟩ := List.getLast?_eq_some_iff.mp hpast
  -- As many bytes as fit are read, and dropping `len` bytes drops these.
  set n := if c.len16 < s.remained then c.len16 else s.remained with hn
  have hle : n ≤ d.payload.length := by
    rw [hn]
    split <;> omega
  have hdrop : d.payload.drop c.len16 = d.payload.drop n := by
    rw [hn]
    split
    · rfl
    · rw [List.drop_of_length_le (by omega), List.drop_of_length_le (by omega)]
  have hread := Chip.receive_eq hrx h.rd memory hle
  rw [hdrop]
  simp only [State.data, ← hn, hread]
  refine Quiet.aligned ?_ ?_ (quiet_recvfromReturn _ _ _ _) fun _ => ?_
  · exact
      { accepted := h.accepted
        rx := rfl
        rd := rfl
        isSuffix := (List.drop_suffix n d.payload).trans hsuffix
        length := h.length
        fits := h.fits
        boundaries := ⟨h.boundaries.headers, h.boundaries.returns, h.boundaries.addresses⟩ }
  · constructor
    · simp only [leftover, hpast, hheader, hdrop]
    · simp only [hremained, List.length_drop]
  · refine ⟨ds, d, rest, [], d.payload.drop n, ?_, (List.take_append_drop n _).symm, ?_⟩
    · rw [h.accepted, List.append_assoc]
      rfl
    · rw [List.flatMap_append, List.flatMap_singleton, List.length_append, d.length_bytes] at hpos
      rw [List.length_nil]
      omega

/-! ### Runs -/

theorem extends_data (memory : ℕ → UInt8) (c : Call) : Extends s (s.data memory c) := by
  have hext (u : State) (hh : u.headers = s.headers) (ha : u.accepted = s.accepted) (p : ℕ) (r : ℤ)
      (bytes : List UInt8) : Extends s (u.recvfromReturn c p r bytes) := by
    have hq := quiet_recvfromReturn (s := u) c p r bytes
    exact .of_eq (hq.headers.trans hh) (hq.accepted.trans ha)
  unfold State.data
  refine hext _ ?_ ?_ _ _ _ <;> rfl

theorem extends_step {a : Act} (h : step s a = some t) : Extends s t := by
  cases a with
  | arrive d =>
    cases h
    unfold State.arrive
    split
    · exact ⟨List.prefix_refl _, List.prefix_append _ _⟩
    · exact .of_eq rfl rfl
  | tick us =>
    cases h
    exact .of_eq rfl rfl
  | status sr =>
    cases h
    exact .of_eq rfl rfl
  | read len timeout =>
    simp only [step] at h
    split at h
    · cases h
      exact (quiet_udpRead len timeout).extends
    · cases h
  | run memory =>
    rcases run_cases h with
      rfl | ⟨-, hq⟩ | ⟨c, -, rfl⟩ | ⟨c, n, -, rfl⟩ | ⟨c, n, -, rfl⟩ | ⟨c, -, rfl⟩
    · exact .of_eq rfl rfl
    · exact hq.extends
    · exact ⟨List.prefix_append _ _, List.prefix_refl _⟩
    · exact .of_eq rfl rfl
    · exact .of_eq rfl rfl
    · exact extends_data memory c

theorem zip_append_of_length_le {α β : Type*} {l : List α} {m : List β} (m' : List β)
    (h : l.length ≤ m.length) : l.zip (m ++ m') = l.zip m := by
  induction l generalizing m with
  | nil => rfl
  | cons a l ih =>
    cases m with
    | nil => simp at h
    | cons b m => simp [ih (Nat.le_of_succ_le_succ h)]

theorem Phase.congr {rest' : List Datagram} (hp : Phase s past rest front) (hpc : t.pc = s.pc)
    (hheaders : t.headers = s.headers) (hremained : t.remained = s.remained)
    (hinfo : t.packInfo = s.packInfo) (hrest : rest ≠ [] → rest' ≠ []) :
    Phase t past rest' front := by
  have hb (h : Between s past front) : Between t past front :=
    ⟨by rw [hheaders]; exact h.eq_leftover, hremained.trans h.remained⟩
  have hr {c : Call} {n : ℕ} {d : Datagram} (h : Reading s past front c n d) :
      Reading t past front c n d := ⟨h.eq_drop, h.past, by rw [hheaders]; exact h.header⟩
  unfold Phase at hp ⊢
  rw [hpc]
  cases hspc : s.pc with
  | wait c =>
    rw [hspc] at hp
    exact ⟨hb hp.1, hremained.trans hp.2⟩
  | head c =>
    rw [hspc] at hp
    exact ⟨hb hp.1, fun h => hrest (hp.2 (hremained ▸ h))⟩
  | addr c n =>
    rw [hspc] at hp
    obtain ⟨d, hd, hn, hs⟩ := hp
    exact ⟨d, hr hd, hn, hinfo ▸ hs⟩
  | port c n =>
    rw [hspc] at hp
    obtain ⟨d, hd, hn⟩ := hp
    exact ⟨d, hr hd, hn⟩
  | data c =>
    rw [hspc] at hp
    obtain ⟨d, hd, hn⟩ := hp
    exact ⟨d, hr hd, hremained.trans hn⟩
  | _ =>
    rw [hspc] at hp
    exact hb hp

theorem aligned_arrive {d : Datagram} (h : Aligned s past rest front)
    (hp : Phase s past rest front) :
    ∃ rest, Aligned (s.arrive d) past rest front ∧ Phase (s.arrive d) past rest front := by
  unfold State.arrive
  split
  · refine ⟨rest ++ [d], ?_, ?_⟩
    · exact
        { accepted := by simp only [h.accepted, List.append_assoc]
          rx := by
            simp only [Chip.store, h.rx, List.flatMap_append, List.flatMap_singleton,
              List.append_assoc]
          rd := h.rd
          isSuffix := h.isSuffix
          length := h.length
          fits := by
            have hlen : s.headers.dropLast.length ≤ s.accepted.length := by
              rw [List.length_dropLast, h.length, h.accepted, List.length_append]
              omega
            simp only [Fits, zip_append_of_length_le [d] hlen]
            exact h.fits
          boundaries :=
            { headers := fun header hmem => (h.boundaries.headers header hmem).append [d]
              returns := fun r hr hne => (h.boundaries.returns r hr hne).append [d]
              addresses := h.boundaries.addresses } }
    · exact hp.congr rfl rfl rfl rfl fun _ => by simp
  · exact ⟨rest, h, hp⟩

theorem inv_run {memory : ℕ → UInt8} (h : Aligned s past rest front)
    (hp : Phase s past rest front) (hrun : s.run memory = some t) : Inv t := by
  rcases run_cases hrun with rfl | ⟨hb, hq⟩ | ⟨c, hpc, rfl⟩ | ⟨c, n, hpc, rfl⟩ | ⟨c, n, hpc, rfl⟩ |
    ⟨c, hpc, rfl⟩
  · exact .inl ⟨past, rest, front, h, hp⟩
  · exact .inl ⟨past, rest, front, hq.aligned h (hb _ _ _ hp) fun hne => absurd rfl hne⟩
  all_goals
    rw [Phase, hpc] at hp
  · obtain ⟨hb, hrest⟩ := hp
    by_cases hremained : s.remained = 0
    · obtain rfl := List.length_eq_zero_iff.mp (hb.remained.symm.trans hremained)
      obtain ⟨d, rest, rfl⟩ := List.exists_cons_of_ne_nil (hrest hremained)
      exact .inl ⟨_, _, _, aligned_head h hb⟩
    · exact .inr (broken_head h hb hremained)
  · obtain ⟨d, hr, hn, hinfo⟩ := hp
    obtain ⟨ht, hr⟩ := aligned_addr h hr hinfo
    exact .inl ⟨_, _, _, ht, d, hr, hn⟩
  · obtain ⟨d, hr, hn⟩ := hp
    obtain ⟨ht, hr⟩ := aligned_port h hr
    exact .inl ⟨_, _, _, ht, d, hr, hn⟩
  · obtain ⟨d, hr, hn⟩ := hp
    exact .inl ⟨_, _, _, aligned_data h hr hn⟩

theorem inv_step (s : State) (a : Act) (t : State) (hs : Inv s) (h : step s a = some t) :
    Inv t := by
  rcases hs with ⟨past, rest, front, hs, hp⟩ | hs
  · cases a with
    | arrive d =>
      cases h
      obtain ⟨rest, ht⟩ := aligned_arrive (d := d) hs hp
      exact .inl ⟨past, rest, front, ht⟩
    | tick us =>
      cases h
      exact .inl ⟨past, rest, front, { hs with boundaries := { hs.boundaries with } },
        hp.congr rfl rfl rfl rfl id⟩
    | status sr =>
      cases h
      exact .inl ⟨past, rest, front, { hs with boundaries := { hs.boundaries with } },
        hp.congr rfl rfl rfl rfl id⟩
    | read len timeout =>
      simp only [step] at h
      split at h
      · next hpc =>
        cases h
        rw [Phase, hpc] at hp
        exact .inl ⟨past, rest, front,
          (quiet_udpRead len timeout).aligned hs hp fun hne => absurd rfl hne⟩
      · cases h
    | run memory => exact inv_run hs hp h
  · exact .inr (hs.of_extends (extends_step h))

/-- **When the boundaries of datagrams are kept.** In every state reached, `Boundaries` holds
exactly if no call of `recvfrom` but the last one got a datagram longer than its `len`. -/
theorem boundaries_iff {as : List Act} (h : Machine.run step .start as = some s) :
    Boundaries s ↔ Fits s :=
  (Machine.inv_of_run inv_step inv_start h).boundaries_iff_fits

/-! ### Two runs -/

/-- A call with timeout `0`, in which the driver makes some steps. -/
def readOnce (len steps : ℕ) : List Act :=
  .read len 0 :: List.replicate steps (.run fun _ => 0)

def datagram (payload : List UInt8) (h : payload.length < 2048) : Datagram :=
  ⟨0, ![192, 168, 1, 2], 8888, payload, h⟩

/-- Two datagrams that fit arrive and are read. -/
def twoDatagrams : List Act :=
  [.arrive (datagram [1, 2, 3] (by decide)), .arrive (datagram [4, 5] (by decide))] ++
    readOnce 3 6 ++ readOnce 512 6

theorem boundaries_iff_twoDatagrams :
    ∃ s, Machine.run step .start twoDatagrams = some s ∧
      s.returns.map Return.bytes = [[1, 2, 3], [4, 5]] ∧ Boundaries s := by
  have h : Machine.run step .start twoDatagrams = some _ := rfl
  exact ⟨_, h, rfl, (boundaries_iff h).mpr (by decide)⟩

/-- A datagram with 26 bytes of payload is read in two parts of 4 bytes. -/
def oversized : List Act :=
  .arrive (datagram ([1, 2, 3, 4] ++ [0x80, 2] ++ List.replicate 20 0xFF) (by decide)) ::
    (readOnce 4 6 ++ readOnce 4 5)

/-- The second call takes the bytes `0x80, 2` of the payload for an info word, and stores 16 bytes
to `rip`. -/
theorem oversized_not_boundaries :
    ∃ s, Machine.run step .start oversized = some s ∧
      s.addresses.map List.length = [4, 16] ∧ ¬ Boundaries s := by
  have h : Machine.run step .start oversized = some _ := rfl
  refine ⟨_, h, rfl, fun hb => ?_⟩
  exact absurd (hb.addresses (List.replicate 16 0xFF) (by decide)) (by decide)

end PicoUros.Net
