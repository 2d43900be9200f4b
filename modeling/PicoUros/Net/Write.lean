import PicoUros.Net.Read
import Mathlib.Data.Fin.VecNotation

/-!
# The UDP write of the micro-ROS transport

`wiz_uros_udp_write` hands a message to `sendto`, its length cut to 16 bits
(`wiz_udp_transport.c`, lines 37–51). On the W6100 this is `sendto_IO_6` with `IPV6_AVAILABLE`
defined and an address of four bytes (`socket.c`, lines 751–894). It cuts the length to the size of
the transmit buffer of the socket, waits until so much is free, copies the bytes behind `Sn_TX_WR`
and gives the command `SEND`. The chip then sends what is between `Sn_TX_RD` and `Sn_TX_WR` as one
datagram and moves `Sn_TX_RD` up when it reports `SENDOK` (`w6100.h`, lines 1313–1322). The socket
is opened in the mode `Sn_MR_UDP4`, so the tests of the mode pass.

What the chip answers to the two waiting loops is an argument of a write. A write that has not
returned after these answers has the result `none`.

## Main definitions

* `Transport`, `udpOpen`, `udpClose`, `udpWrite`: the transport and its calls.
* `WriteCall`, `writeStep`: a run of these calls.
* `AllOrNothing`: a write sends the whole message as one datagram, or fails and sends nothing.
* `CutOrNothing`: a write sends the message as far as the transmit buffer has room for it.

## Main results

* `udpWrite_cutOrNothing`: in every run each write that returns is of this kind, and a write
  returns when the chip answers.
* `udpWrite_not_allOrNothing`: a message longer than the buffer, and a message after a timeout.
-/

namespace PicoUros.Net

/-! ### The transport -/

/-- The fields of `wiz_uros_udp_params_t` that a write uses. -/
structure Params where
  agentIp : Fin 4 → UInt8
  agentPort : UInt16

/-- A datagram that the chip has sent. -/
structure Sent where
  addr : Fin 4 → UInt8
  port : UInt16
  payload : List UInt8
  deriving DecidableEq

structure Transport where
  /-- `g_sock` is the number of a socket. -/
  opened : Bool := false
  /-- The bit of the socket in `sock_io_mode`: it does not block. -/
  ioMode : Bool := false
  /-- `Sn_DIPR`. -/
  dipr : Fin 4 → UInt8 := fun _ => 0
  /-- `Sn_DPORTR`. -/
  dportr : UInt16 := 0
  /-- The bytes from `Sn_TX_RD` to `Sn_TX_WR`. -/
  tx : List UInt8 := []
  sent : List Sent := []
  deriving DecidableEq

/-- What the chip answers in a pass of the first waiting loop: `Sn_TX_FSR` and `Sn_SR`. -/
structure FreePoll where
  free : UInt16
  sr : UInt8

/-- The answers of the chip in the two waiting loops of `sendto`, the second being values of
`Sn_IR`. -/
structure Answers where
  polls : List FreePoll
  irs : List UInt8

/-- `SOCKERR_PORTZERO`. -/
def sockerrPortzero : ℤ := -11

/-- `SOCKERR_TIMEOUT`. -/
def sockerrTimeout : ℤ := -13

/-- `Sn_IR_SENDOK`. -/
def snIrSendok : UInt8 := 0x10

/-- `Sn_IR_TIMEOUT`. -/
def snIrTimeout : UInt8 := 0x08

/-- `getSn_TxMAX`, for the size that `wizchip_initialize` sets for each socket. -/
def txBufferSize : ℕ := 2048

/-- The waiting loop before the copy. It ends with a result of `sendto`, or with `none` when there
is room; the outer `none` is a loop that goes on. -/
def waitFree (ioMode : Bool) (len : ℕ) : List FreePoll → Option (Option ℤ)
  | [] => none
  | q :: qs =>
    if q.sr = sockClosed then some (some sockerrSockclosed)
    else if ioMode && decide (len > q.free.toNat) then some (some sockBusy)
    else if len ≤ q.free.toNat then some none
    else waitFree ioMode len qs

/-- The waiting loop after `SEND`, which ends with `SENDOK` or with `TIMEOUT`. -/
def waitSent : List UInt8 → Option Bool
  | [] => none
  | ir :: irs =>
    if ir &&& snIrSendok ≠ 0 then some true
    else if ir &&& snIrTimeout ≠ 0 then some false
    else waitSent irs

/-- `sendto`: its result, and the transport after it. -/
def sendto (t : Transport) (buf : List UInt8) (len : ℕ) (addr : Fin 4 → UInt8) (port : UInt16)
    (answers : Answers) : Option (ℤ × Transport) :=
  let t := { t with dipr := addr }
  if port = 0 then some (sockerrPortzero, t)
  else
    let t := { t with dportr := port }
    let len := if len > txBufferSize then txBufferSize else len
    match waitFree t.ioMode len answers.polls with
    | none => none
    | some (some r) => some (r, t)
    | some none =>
      let t := { t with tx := t.tx ++ buf.take len }
      match waitSent answers.irs with
      | none => none
      | some true => some (len, { t with tx := [], sent := t.sent ++ [⟨t.dipr, t.dportr, t.tx⟩] })
      | some false => some (sockerrTimeout, t)

/-- `wiz_uros_udp_open`. The socket is closed first, and `OPEN` sets the pointers of its buffers. -/
def udpOpen (t : Transport) : Transport := { t with opened := true, ioMode := false, tx := [] }

/-- `wiz_uros_udp_close`. -/
def udpClose (t : Transport) : Transport :=
  if t.opened then { t with opened := false, ioMode := false } else t

/-- `wiz_uros_udp_write` for a message of `len` bytes: its result and `*err`. -/
def udpWrite (p : Params) (t : Transport) (buf : List UInt8) (answers : Answers) :
    Option (ℕ × UInt8 × Transport) :=
  if !t.opened then some (0, 1, t)
  else
    match sendto t buf (buf.length % 65536) p.agentIp p.agentPort answers with
    | none => none
    | some (r, t) => if r < 0 then some (0, 1, t) else some (r.toNat, 0, t)

/-- The calls that the client library makes. -/
inductive WriteCall where
  | open
  | close
  | write (buf : List UInt8) (answers : Answers)

def writeStep (p : Params) (t : Transport) : WriteCall → Option Transport
  | .open => some (udpOpen t)
  | .close => some (udpClose t)
  | .write buf answers => (udpWrite p t buf answers).map fun r => r.2.2

/-! ### The promise -/

/-- The whole message is one datagram to the agent, or the write fails and sends nothing. -/
def AllOrNothing (p : Params) (buf : List UInt8) (t t' : Transport) (n : ℕ) (err : UInt8) : Prop :=
  (err = 0 ∧ n = buf.length ∧ t'.sent = t.sent ++ [⟨p.agentIp, p.agentPort, buf⟩]) ∨
    (err = 1 ∧ n = 0 ∧ t'.sent = t.sent)

/-- The message is cut to the size of the transmit buffer, and the result is the length that is
left. The datagram is this part of the message if the buffer was empty. -/
def CutOrNothing (p : Params) (buf : List UInt8) (t t' : Transport) (n : ℕ) (err : UInt8) : Prop :=
  (err = 0 ∧ n ≤ buf.length ∧ (buf.length < 65536 → n = min buf.length txBufferSize) ∧
    ∃ payload, t'.sent = t.sent ++ [⟨p.agentIp, p.agentPort, payload⟩] ∧
      (t.tx = [] → payload = buf.take n)) ∨
    (err = 1 ∧ n = 0 ∧ t'.sent = t.sent)

/-- The answers end both loops, for a message of any length. -/
structure Answers.Final (answers : Answers) : Prop where
  polls : ∃ q ∈ answers.polls, q.sr = sockClosed ∨ txBufferSize ≤ q.free.toNat
  irs : ∃ ir ∈ answers.irs, ir &&& snIrSendok ≠ 0 ∨ ir &&& snIrTimeout ≠ 0

/-- The chip reports `TIMEOUT` during the call. -/
def WriteCall.TimesOut : WriteCall → Prop
  | .write _ answers => ∃ ir ∈ answers.irs, ir &&& snIrTimeout ≠ 0
  | _ => False

/-! ### The two loops -/

/-- In blocking mode the first loop ends with room for the message, or with a closed socket. -/
theorem waitFree_blocking {len : ℕ} {polls : List FreePoll} {r : Option ℤ}
    (h : waitFree false len polls = some r) : r = none ∨ r = some sockerrSockclosed := by
  induction polls with
  | nil => simp [waitFree] at h
  | cons q qs ih =>
    simp only [waitFree, Bool.false_and, Bool.false_eq_true, if_false] at h
    split_ifs at h with hclosed hfree
    · exact .inr (Option.some.inj h).symm
    · exact .inl (Option.some.inj h).symm
    · exact ih h

theorem isSome_waitFree {len : ℕ} (hlen : len ≤ txBufferSize) {polls : List FreePoll}
    (h : ∃ q ∈ polls, q.sr = sockClosed ∨ txBufferSize ≤ q.free.toNat) (ioMode : Bool) :
    (waitFree ioMode len polls).isSome := by
  induction polls with
  | nil => simp at h
  | cons q qs ih =>
    simp only [waitFree]
    split_ifs with hclosed hbusy hfree
    · rfl
    · rfl
    · rfl
    · refine ih ?_
      obtain ⟨q', hq', hfinal⟩ := h
      rcases List.mem_cons.mp hq' with rfl | hmem
      · rcases hfinal with hc | hf
        · exact (hclosed hc).elim
        · exact (hfree (hlen.trans hf)).elim
      · exact ⟨q', hmem, hfinal⟩

theorem isSome_waitSent {irs : List UInt8}
    (h : ∃ ir ∈ irs, ir &&& snIrSendok ≠ 0 ∨ ir &&& snIrTimeout ≠ 0) : (waitSent irs).isSome := by
  induction irs with
  | nil => simp at h
  | cons ir irs ih =>
    simp only [waitSent]
    split_ifs with hok htimeout
    · rfl
    · rfl
    · refine ih ?_
      obtain ⟨ir', hir', hfinal⟩ := h
      rcases List.mem_cons.mp hir' with rfl | hmem
      · exact (hfinal.elim hok htimeout).elim
      · exact ⟨ir', hmem, hfinal⟩

/-- The second loop fails by a `TIMEOUT` only. -/
theorem exists_timeout_of_waitSent {irs : List UInt8} (h : waitSent irs = some false) :
    ∃ ir ∈ irs, ir &&& snIrTimeout ≠ 0 := by
  induction irs with
  | nil => simp [waitSent] at h
  | cons ir irs ih =>
    simp only [waitSent] at h
    split_ifs at h with hok htimeout
    · simp at h
    · exact ⟨ir, List.mem_cons_self, htimeout⟩
    · obtain ⟨ir', hmem, hbit⟩ := ih h
      exact ⟨ir', List.mem_cons_of_mem _ hmem, hbit⟩

/-! ### A write -/

variable {p : Params} {t t' : Transport} {buf : List UInt8} {answers : Answers}

/-- `sendto` has failed: it has sent nothing, and has left bytes in the buffer only if the chip has
reported `TIMEOUT`. -/
structure SendFailed (answers : Answers) (r : ℤ) (t t' : Transport) : Prop where
  neg : r < 0
  sent : t'.sent = t.sent
  tx : t'.tx = t.tx ∨ ∃ ir ∈ answers.irs, ir &&& snIrTimeout ≠ 0
  ioMode : t'.ioMode = t.ioMode

/-- `sendto` has sent a datagram: what was in the buffer, and then the first `n` bytes. -/
structure SendDone (buf : List UInt8) (n : ℕ) (addr : Fin 4 → UInt8) (port : UInt16) (r : ℤ)
    (t t' : Transport) : Prop where
  result : r = n
  sent : t'.sent = t.sent ++ [⟨addr, port, t.tx ++ buf.take n⟩]
  tx : t'.tx = []
  ioMode : t'.ioMode = t.ioMode

theorem clamp_eq_min (len : ℕ) :
    (if len > txBufferSize then txBufferSize else len) = min len txBufferSize := by
  split_ifs <;> omega

/-- What `sendto` does in blocking mode. -/
theorem sendto_cases (hmode : t.ioMode = false) {len : ℕ} {addr : Fin 4 → UInt8} {port : UInt16}
    {r : ℤ} (h : sendto t buf len addr port answers = some (r, t')) :
    SendFailed answers r t t' ∨ SendDone buf (min len txBufferSize) addr port r t t' := by
  unfold sendto at h
  simp only [hmode, clamp_eq_min] at h
  split_ifs at h with hport
  · obtain ⟨rfl, rfl⟩ : sockerrPortzero = r ∧ _ = t' := by simpa using h
    exact .inl ⟨by decide, rfl, .inl rfl, hmode.symm⟩
  · cases hfree : waitFree false (min len txBufferSize) answers.polls with
    | none => simp [hfree] at h
    | some result =>
      rcases waitFree_blocking hfree with rfl | rfl
      · simp only [hfree] at h
        cases hsent : waitSent answers.irs with
        | none => simp [hsent] at h
        | some ok =>
          cases ok with
          | true =>
            simp only [hsent, Option.some.injEq, Prod.mk.injEq] at h
            obtain ⟨rfl, rfl⟩ := h
            exact .inr ⟨rfl, rfl, rfl, hmode.symm⟩
          | false =>
            simp only [hsent, Option.some.injEq, Prod.mk.injEq] at h
            obtain ⟨rfl, rfl⟩ := h
            exact .inl ⟨by decide, rfl, .inr (exists_timeout_of_waitSent hsent), hmode.symm⟩
      · simp only [hfree, Option.some.injEq, Prod.mk.injEq] at h
        obtain ⟨rfl, rfl⟩ := h
        exact .inl ⟨by decide, rfl, .inl rfl, hmode.symm⟩

/-- What a write does in blocking mode: it fails, or hands all but the length to `sendto`. -/
theorem udpWrite_cases (hmode : t.ioMode = false) {n : ℕ} {err : UInt8}
    (h : udpWrite p t buf answers = some (n, err, t')) :
    (n = 0 ∧ err = 1 ∧ (t' = t ∨ ∃ r, SendFailed answers r t t')) ∨
      (err = 0 ∧ SendDone buf (min (buf.length % 65536) txBufferSize) p.agentIp p.agentPort n t
        t') := by
  unfold udpWrite at h
  split_ifs at h with hopened
  · simp only [Option.some.injEq, Prod.mk.injEq] at h
    obtain ⟨rfl, rfl, rfl⟩ := h
    exact .inl ⟨rfl, rfl, .inl rfl⟩
  · cases hsend : sendto t buf (buf.length % 65536) p.agentIp p.agentPort answers with
    | none => simp [hsend] at h
    | some result =>
      obtain ⟨r, u⟩ := result
      simp only [hsend] at h
      rcases sendto_cases hmode hsend with hfailed | hdone
      · rw [if_pos hfailed.neg, Option.some.injEq, Prod.mk.injEq, Prod.mk.injEq] at h
        obtain ⟨rfl, rfl, rfl⟩ := h
        exact .inl ⟨rfl, rfl, .inr ⟨r, hfailed⟩⟩
      · have hr := hdone.result
        rw [if_neg (by omega), Option.some.injEq, Prod.mk.injEq, Prod.mk.injEq] at h
        obtain ⟨rfl, rfl, rfl⟩ := h
        refine .inr ⟨rfl, { hdone with result := ?_ }⟩
        rw [hr, Int.toNat_natCast]

/-- A write returns when the answers end both loops. -/
theorem isSome_udpWrite (h : answers.Final) : (udpWrite p t buf answers).isSome := by
  unfold udpWrite
  split_ifs with hopened
  · rfl
  · suffices hsend : (sendto t buf (buf.length % 65536) p.agentIp p.agentPort answers).isSome by
      obtain ⟨⟨r, u⟩, hru⟩ := Option.isSome_iff_exists.mp hsend
      rw [hru]
      simp only
      split_ifs <;> rfl
    obtain ⟨result, hfree⟩ := Option.isSome_iff_exists.mp
      (isSome_waitFree (min_le_right (buf.length % 65536) txBufferSize) h.polls t.ioMode)
    obtain ⟨ok, hsent⟩ := Option.isSome_iff_exists.mp (isSome_waitSent h.irs)
    unfold sendto
    simp only [clamp_eq_min]
    split_ifs with hport
    · rfl
    · rw [hfree]
      cases result with
      | some r => rfl
      | none =>
        rw [hsent]
        cases ok <;> rfl

/-! ### Runs -/

/-- The socket blocks in every run. -/
theorem ioMode_of_writeStep (hmode : t.ioMode = false) {call : WriteCall}
    (h : writeStep p t call = some t') : t'.ioMode = false := by
  cases call with
  | «open» =>
    cases h
    rfl
  | close =>
    cases h
    unfold udpClose
    split_ifs
    · rfl
    · exact hmode
  | write buf answers =>
    obtain ⟨⟨n, err, u⟩, hw, rfl⟩ := Option.map_eq_some_iff.mp h
    rcases udpWrite_cases hmode hw with ⟨-, -, rfl | ⟨r, hfailed⟩⟩ | ⟨-, hdone⟩
    · exact hmode
    · exact hfailed.ioMode.trans hmode
    · exact hdone.ioMode.trans hmode

theorem ioMode_of_run (p : Params) {calls : List WriteCall}
    (h : Machine.run (writeStep p) {} calls = some t) : t.ioMode = false :=
  Machine.inv_of_run (fun _ _ _ hmode hst => ioMode_of_writeStep hmode hst) rfl h

/-- Only a `TIMEOUT` leaves bytes in the transmit buffer. -/
theorem tx_eq_nil_of_run (p : Params) {calls : List WriteCall} {t₀ : Transport}
    (hmode : t₀.ioMode = false) (htx : t₀.tx = [])
    (h : Machine.run (writeStep p) t₀ calls = some t) (hcalls : ∀ call ∈ calls, ¬ call.TimesOut) :
    t.tx = [] := by
  induction calls generalizing t₀ with
  | nil =>
    cases h
    exact htx
  | cons call calls ih =>
    obtain ⟨u, hu, h⟩ := Option.bind_eq_some_iff.mp h
    have hcall := hcalls call List.mem_cons_self
    refine ih (ioMode_of_writeStep hmode hu) ?_ h fun c hc => hcalls c (List.mem_cons_of_mem _ hc)
    cases call with
    | «open» =>
      cases hu
      rfl
    | close =>
      cases hu
      unfold udpClose
      split_ifs <;> exact htx
    | write buf answers =>
      obtain ⟨⟨n, err, v⟩, hw, rfl⟩ := Option.map_eq_some_iff.mp hu
      rcases udpWrite_cases hmode hw with ⟨-, -, rfl | ⟨r, hfailed⟩⟩ | ⟨-, hdone⟩
      · exact htx
      · exact (hfailed.tx.resolve_right hcall).trans htx
      · exact hdone.tx

/-- Every write is cut or fails, in blocking mode. -/
theorem cutOrNothing_of_udpWrite (hmode : t.ioMode = false) {n : ℕ} {err : UInt8}
    (h : udpWrite p t buf answers = some (n, err, t')) : CutOrNothing p buf t t' n err := by
  rcases udpWrite_cases hmode h with ⟨rfl, rfl, hfailed⟩ | ⟨rfl, hdone⟩
  · refine .inr ⟨rfl, rfl, ?_⟩
    rcases hfailed with rfl | ⟨r, hfailed⟩
    · rfl
    · exact hfailed.sent
  · have hn : n = min (buf.length % 65536) txBufferSize := Int.ofNat.inj hdone.result
    refine .inl ⟨rfl, ?_, fun hlen => ?_, _, hdone.sent, fun htx => ?_⟩
    · omega
    · rw [hn, Nat.mod_eq_of_lt hlen]
    · rw [htx, List.nil_append, hn]

/-- **What a write does.** In every run of the calls of the transport, from its first state on, a
write that returns has sent the message up to the size of the transmit buffer, or has failed and
sent nothing; the buffer was empty before it unless a write has timed out; and it returns when the
chip answers. -/
theorem udpWrite_cutOrNothing (p : Params) {calls : List WriteCall}
    (h : Machine.run (writeStep p) {} calls = some t) (buf : List UInt8) (answers : Answers) :
    (∀ n err t', udpWrite p t buf answers = some (n, err, t') →
        CutOrNothing p buf t t' n err) ∧
      ((∀ call ∈ calls, ¬ call.TimesOut) → t.tx = []) ∧
      (answers.Final → (udpWrite p t buf answers).isSome) :=
  ⟨fun _ _ _ hw => cutOrNothing_of_udpWrite (ioMode_of_run p h) hw,
    tx_eq_nil_of_run p rfl rfl h, isSome_udpWrite⟩

def agent : Params where
  agentIp := ![192, 168, 123, 18]
  agentPort := 8888

/-- There is room, and the datagram is sent. -/
def promptAnswers : Answers := ⟨[⟨2048, sockUdp⟩], [snIrSendok]⟩

theorem udpWrite_cutOrNothing_prompt :
    ∃ t n err t', Machine.run (writeStep agent) {} [.open] = some t ∧
      udpWrite agent t [1, 2, 3] promptAnswers = some (n, err, t') ∧
      CutOrNothing agent [1, 2, 3] t t' n err := by
  have hrun : Machine.run (writeStep agent) {} [.open] = some (udpOpen {}) := rfl
  have hwrite : udpWrite agent (udpOpen {}) [1, 2, 3] promptAnswers = some (3, 0, _) := rfl
  exact ⟨_, _, _, _, hrun, hwrite,
    (udpWrite_cutOrNothing agent hrun [1, 2, 3] promptAnswers).1 _ _ _ hwrite⟩

/-- A message that is longer than the transmit buffer. -/
def longMessage : List UInt8 := List.replicate 3000 0

/-- There is room, and the address of the agent is not resolved. -/
def timeoutAnswers : Answers := ⟨[⟨2048, sockUdp⟩], [snIrTimeout]⟩

/-- The long message is cut with no error. A message after a timeout is sent behind the bytes of the
message before it. -/
theorem udpWrite_not_allOrNothing :
    (∃ t n err t', Machine.run (writeStep agent) {} [.open] = some t ∧
      udpWrite agent t longMessage promptAnswers = some (n, err, t') ∧
      ¬ AllOrNothing agent longMessage t t' n err) ∧
    ∃ t n err t', Machine.run (writeStep agent) {} [.open, .write [1] timeoutAnswers] = some t ∧
      udpWrite agent t [2] promptAnswers = some (n, err, t') ∧
      t'.sent = [⟨agent.agentIp, agent.agentPort, [1, 2]⟩] ∧
      ¬ AllOrNothing agent [2] t t' n err := by
  have hlen : longMessage.length = 3000 := List.length_replicate
  constructor
  · obtain ⟨t', hwrite⟩ : ∃ t', udpWrite agent (udpOpen {}) longMessage promptAnswers =
        some (2048, 0, t') := by
      simp only [udpWrite, hlen]
      exact ⟨_, rfl⟩
    refine ⟨_, _, _, _, rfl, hwrite, fun h => ?_⟩
    rcases h with ⟨-, hn, -⟩ | ⟨herr, -⟩
    · rw [hlen] at hn
      exact absurd hn (by decide)
    · exact absurd herr (by decide)
  · refine ⟨_, _, _, _, rfl, rfl, rfl, fun h => ?_⟩
    rcases h with ⟨-, -, hsent⟩ | ⟨herr, -⟩
    · exact absurd (congrArg (List.map Sent.payload) hsent) (by decide)
    · exact absurd herr (by decide)

end PicoUros.Net
