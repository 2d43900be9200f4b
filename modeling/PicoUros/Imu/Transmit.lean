import PicoUros.Imu.Messages

/-!
# Messages to the hub

`txProcess` cuts a message for the hub in transfers. Between two attempts to write a transfer the
hub is serviced, and so messages of the hub are handled while a message to the hub is being sent.

The length in the header is that of the transfer, not that of what is left of the message, as
`rxAssemble` expects it. So a receiver that works like `rxAssemble` does not put the transfers
together.

## Main definitions

* `IsTransfer`, `Transmits c payload ts`: the transfers `ts` carry the message `payload`.
* `Filled size c first ts rest`: they are filled up, and numbered from `first` on.

## Main results

* `Client.send_transmits`: whatever is received while a message is being sent, the transfers
  accepted carry this message.
* `Client.send_filled`: they are filled up and numbered without a gap, while the hub does not
  advertise.
* `Client.received_whole_iff`: a message is received as a whole exactly if it fits in one transfer.
-/

namespace PicoUros.Imu

open Fragment

/-- A transfer that `txProcess` writes for a channel. -/
def IsTransfer (c : Fin 8) (continuation : Bool) (transfer : List UInt8) : Prop :=
  ∃ seq part, transfer = (outHeader c seq part continuation).encode ++ part ∧
    part.length + hdrLen ≤ maxOut

/-- The transfers carry the message: its bytes are behind their headers, in order, and all of them
but the first are continuations. -/
structure Transmits (c : Fin 8) (payload : List UInt8) (ts : List (List UInt8)) : Prop where
  bytes : ts.flatMap (List.drop hdrLen) = payload
  transfer : ∀ i t, ts[i]? = some t → IsTransfer c (decide (i ≠ 0)) t

theorem transmits_nil (c : Fin 8) : Transmits c [] [] := ⟨rfl, fun i t ht => by simp at ht⟩

theorem Transmits.concat {c : Fin 8} {payload : List UInt8} {ts : List (List UInt8)}
    {t : List UInt8} (h : Transmits c payload ts) (ht : IsTransfer c (decide (ts ≠ [])) t) :
    Transmits c (payload ++ t.drop hdrLen) (ts ++ [t]) where
  bytes := by rw [List.flatMap_append, h.bytes, List.flatMap_singleton]
  transfer := fun i t' ht' => by
    rcases lt_trichotomy i ts.length with hi | rfl | hi
    · rw [List.getElem?_append_left hi] at ht'
      exact h.transfer i t' ht'
    · rw [List.getElem?_concat_length] at ht'
      obtain rfl := Option.some.inj ht'
      simpa only [ne_eq, List.length_eq_zero_iff] using ht
    · rw [List.getElem?_eq_none (by simp; omega)] at ht'
      cases ht'

/-! ### Staging -/

namespace Shtp

variable {s v : Shtp} {c : Fin 8} {data : List UInt8} {continuation : Bool} {x : Tx}

/-- The transfer that is staged, and what is left. -/
theorem stage_eq_some (h : s.stage c data continuation = some (v, x)) :
    v = s.countOut c ∧ x.chan = c ∧ x.retry = false ∧ IsTransfer c continuation x.transfer ∧
      x.transfer.drop hdrLen ++ x.rest = data := by
  unfold stage at h
  simp only at h
  split_ifs at h with hlen
  obtain ⟨rfl, rfl⟩ := Prod.mk.inj (Option.some.inj h)
  refine ⟨rfl, rfl, rfl, ⟨_, _, rfl, hlen⟩, ?_⟩
  exact List.take_append_drop _ data

end Shtp

/-! ### A message is sent -/

/-- An action between the start and the end of `txProcess`, if no write fails. -/
def Client.Act.transmitting : Client.Act → Prop
  | .service _ _ => True
  | .write status => status ≠ .error
  | _ => False

namespace Client

variable {k l m : Client}

/-- The message is on its way: the transfers `done` have been accepted. -/
structure Sending (k : Client) (c : Fin 8) (payload : List UInt8) (before done : List (List UInt8))
    (x : Tx) : Prop where
  tx : k.tx = some x
  chan : x.chan = c
  sent : k.sent = before ++ done
  transfer : IsTransfer c (decide (done ≠ [])) x.transfer
  transmits : ∃ part, Transmits c part done ∧ part ++ (x.transfer.drop hdrLen ++ x.rest) = payload

/-- The message is on its way, or all of it has been accepted. -/
def Transmitting (k : Client) (c : Fin 8) (payload : List UInt8) (before : List (List UInt8)) :
    Prop :=
  (∃ done x, Sending k c payload before done x) ∨
    (k.tx = none ∧ ∃ ts, k.sent = before ++ ts ∧ Transmits c payload ts)

/-- The rest `data` of a message is staged. -/
theorem transmitting_of_transmit {c : Fin 8} {part data : List UInt8}
    {before done : List (List UInt8)}
    (hsent : k.sent = before ++ done) (hdone : Transmits c part done)
    (h : k.transmit c data (decide (done ≠ [])) = some l) :
    l.Transmitting c (part ++ data) before := by
  unfold transmit at h
  split_ifs at h with hdata
  · obtain rfl := Option.some.inj h
    exact .inr ⟨rfl, done, hsent, by rw [hdata, List.append_nil]; exact hdone⟩
  · obtain ⟨⟨v, x⟩, hv, rfl⟩ := Option.map_eq_some_iff.mp h
    obtain ⟨-, hchan, -, htransfer, hbytes⟩ := Shtp.stage_eq_some hv
    exact .inl ⟨done, x, rfl, hchan, hsent, htransfer, part, hdone, by rw [hbytes]⟩

/-- A service changes neither the transfers nor the message, but for the flag of the retry. -/
theorem tx_of_service {transfer : List UInt8} {t : UInt32}
    (h : step k (.service transfer t) = some l) :
    l.sent = k.sent ∧ (k.tx = none ∧ l.tx = none ∨
      ∃ x, k.tx = some x ∧ l.tx = some { x with retry := false }) := by
  have hservice {k' : Client} (hk : k'.service transfer t = some l) :
      l.tx = k'.tx ∧ l.sent = k'.sent := by
    obtain ⟨-, ⟨-, rfl⟩ | ⟨-, -, htx, hsent⟩⟩ := service_sh2 hk
    exacts [⟨rfl, rfl⟩, ⟨htx, hsent⟩]
  simp only [step] at h
  split at h
  · rename_i hk
    obtain ⟨htx, hsent⟩ := hservice h
    exact ⟨hsent, .inl ⟨hk, htx.trans hk⟩⟩
  · rename_i x hk
    split_ifs at h
    obtain ⟨htx, hsent⟩ := hservice h
    exact ⟨hsent, .inr ⟨x, hk, htx⟩⟩

/-- While a message is being sent, it stays so, or all of it has been accepted. -/
theorem transmitting_step {c : Fin 8} {payload : List UInt8} {before : List (List UInt8)} {a : Act}
    (ha : a.transmitting) (hk : k.Transmitting c payload before) (h : step k a = some l) :
    l.Transmitting c payload before := by
  cases a with
  | service transfer t =>
    obtain ⟨hsent, htx⟩ := tx_of_service h
    rcases hk with ⟨done, x, hx⟩ | ⟨hnone, ts, hts⟩
    · rcases htx with ⟨hnone, -⟩ | ⟨y, hy, hl⟩
      · exact absurd (hx.tx.symm.trans hnone) (Option.some_ne_none x)
      · obtain rfl := Option.some.inj (hx.tx.symm.trans hy)
        exact .inl ⟨done, _, hl, hx.chan, hsent.trans hx.sent, hx.transfer, hx.transmits⟩
    · rcases htx with ⟨-, hl⟩ | ⟨y, hy, -⟩
      · exact .inr ⟨hl, ts, hsent.trans hts.1, hts.2⟩
      · exact absurd (hy.symm.trans hnone) (Option.some_ne_none y)
  | write status =>
    simp only [step] at h
    split at h
    · cases h
    · rename_i x hx
      split_ifs at h
      rcases hk with ⟨done, y, hy⟩ | ⟨hnone, -⟩
      · obtain rfl := Option.some.inj (hx.symm.trans hy.tx)
        obtain ⟨part, hpart, hbytes⟩ := hy.transmits
        split at h
        · -- The transfer is accepted, and the next one is staged.
          have hdone := hpart.concat hy.transfer
          have hcont : decide (done ++ [x.transfer] ≠ []) = true := by simp
          rw [← hcont] at h
          rw [hy.chan] at h
          have hnext : l.Transmitting c _ before :=
            transmitting_of_transmit (by simp only [hy.sent, List.append_assoc]) hdone h
          rwa [List.append_assoc, hbytes] at hnext
        · obtain rfl := Option.some.inj h
          exact .inl ⟨done, _, rfl, hy.chan, hy.sent, hy.transfer, hy.transmits⟩
        · exact absurd rfl ha
      · exact absurd (hx.symm.trans hnone) (Option.some_ne_none x)
  | setSensorCallback => exact absurd ha id
  | getProdIds => exact absurd ha id
  | abandon => exact absurd ha id
  | send channel payload => exact absurd ha id

/-- The start of `txProcess`. -/
theorem transmit_of_send {channel : UInt8} {payload : List UInt8} (hchan : channel.toNat < 8)
    (hlen : payload.length ≤ k.sh2.shtp.outMaxPayload)
    (h : step k (.send channel payload) = some m) :
    k.transmit ⟨channel.toNat, hchan⟩ payload false = some m := by
  simp only [step, send] at h
  split_ifs at h with htx hmax
  · omega
  · exact h

theorem transmitting_of_run {c : Fin 8} {payload : List UInt8} {before : List (List UInt8)}
    {as : List Act} (hm : m.Transmitting c payload before) (has : ∀ a ∈ as, a.transmitting)
    (h : Machine.run step m as = some l) : l.Transmitting c payload before := by
  induction as generalizing m with
  | nil => exact Option.some.inj h ▸ hm
  | cons a as ih =>
    obtain ⟨n, hn, h⟩ := Option.bind_eq_some_iff.mp h
    exact ih (transmitting_step (has a List.mem_cons_self) hm hn)
      (fun b hb => has b (List.mem_cons_of_mem a hb)) h

/-- The end of `txProcess`. -/
theorem Transmitting.transmits {c : Fin 8} {payload : List UInt8} {before : List (List UInt8)}
    (hl : l.Transmitting c payload before) (hidle : l.tx = none) :
    ∃ ts, l.sent = before ++ ts ∧ Transmits c payload ts := by
  rcases hl with ⟨done, x, hx⟩ | ⟨-, hts⟩
  exacts [absurd (hx.tx.symm.trans hidle) (Option.some_ne_none x), hts]

/-- **The transfers accepted carry the message**, whatever is received while it is being sent, and
however often a write is repeated: when `txProcess` has returned without an error, the bytes of the
message are on the bus once, in order. -/
theorem send_transmits {channel : UInt8} {payload : List UInt8} {as : List Act}
    (hchan : channel.toNat < 8) (hlen : payload.length ≤ k.sh2.shtp.outMaxPayload)
    (hsend : step k (.send channel payload) = some m) (has : ∀ a ∈ as, a.transmitting)
    (h : Machine.run step m as = some l) (hl : l.tx = none) :
    ∃ ts, l.sent = k.sent ++ ts ∧ Transmits ⟨channel.toNat, hchan⟩ payload ts :=
  have hm : m.Transmitting ⟨channel.toNat, hchan⟩ ([] ++ payload) k.sent :=
    transmitting_of_transmit (List.append_nil _).symm (transmits_nil _)
      (transmit_of_send hchan hlen hsend)
  (transmitting_of_run hm has h).transmits hl

/-- A request in one transfer, the write of which is repeated. -/
theorem send_transmits_repeated : ∃ m l : Client,
    step start (.send 2 [0xF9, 0]) = some m ∧
      Machine.run step m [.write .busy, .service [] 0, .write .accepted] = some l ∧
      ∃ ts, l.sent = [] ++ ts ∧ Transmits 2 [0xF9, 0] ts := by
  obtain ⟨l, hl, hidle⟩ := (Option.any_eq_true (fun l : Client => decide (l.tx = none))
    ((step start (.send 2 [0xF9, 0])).bind fun m =>
      Machine.run step m [.write .busy, .service [] 0, .write .accepted])).mp (by decide +kernel)
  obtain ⟨m, hm, hrun⟩ := Option.bind_eq_some_iff.mp hl
  exact ⟨m, l, hm, hrun, send_transmits (by decide) (by decide) hm (by simp [Act.transmitting]) hrun
    (of_decide_eq_true hidle)⟩

end Client

/-! ### The sizes and the numbers -/

/-- The transfers are numbered from `first` on, and filled up to the size `size`, but for the last
one when nothing is left behind it. -/
def Filled (size : ℕ) (c : Fin 8) (first : UInt8) (ts : List (List UInt8)) (rest : List UInt8) :
    Prop :=
  ∀ i t, ts[i]? = some t → ∃ part, t = (outHeader c (first + UInt8.ofNat i) part
    (decide (i ≠ 0))).encode ++ part ∧ part ≠ [] ∧ part.length + hdrLen ≤ size ∧
      (part.length + hdrLen = size ∨ i + 1 = ts.length ∧ rest = [])

theorem filled_nil (size : ℕ) (c : Fin 8) (first : UInt8) (rest : List UInt8) :
    Filled size c first [] rest := fun i t ht => by simp at ht

/-- One more transfer, of as much of `data` as there is room for. -/
theorem Filled.concat {size : ℕ} {c : Fin 8} {first : UInt8} {ts : List (List UInt8)}
    {data : List UInt8} (h : Filled size c first ts data) (hmin : hdrLen < size) (hdata : data ≠ [])
    {n : ℕ} (hn : n = min data.length (size - hdrLen)) :
    Filled size c first (ts ++ [(outHeader c (first + UInt8.ofNat ts.length) (data.take n)
      (decide (ts ≠ []))).encode ++ data.take n]) (data.drop n) := by
  have hpos : 0 < data.length := List.length_pos_iff.mpr hdata
  intro i t ht
  rcases lt_trichotomy i ts.length with hi | rfl | hi
  · rw [List.getElem?_append_left hi] at ht
    obtain ⟨part, heq, hne, hle, hfull | ⟨-, hnil⟩⟩ := h i t ht
    exacts [⟨part, heq, hne, hle, .inl hfull⟩, absurd hnil hdata]
  · rw [List.getElem?_concat_length] at ht
    obtain rfl := Option.some.inj ht
    refine ⟨data.take n, ?_, ?_, ?_, ?_⟩
    · simp only [ne_eq, List.length_eq_zero_iff]
    · rw [← List.length_pos_iff, List.length_take]
      omega
    · rw [List.length_take]
      omega
    · rw [List.length_take, List.length_append, List.length_singleton, List.drop_eq_nil_iff]
      omega
  · rw [List.getElem?_eq_none (by simp; omega)] at ht
    cases ht

/-- The next transfer is filled up, if the transfer size leaves room behind the header. -/
theorem Shtp.transferLen_eq {s : Shtp} (hmin : hdrLen < s.outMaxTransfer)
    (hmax : s.outMaxTransfer ≤ maxOut) (data : List UInt8) :
    s.transferLen data = min data.length (s.outMaxTransfer - hdrLen) := by
  have hmod : (s.outMaxTransfer + (65536 - hdrLen)) % 65536 = s.outMaxTransfer - hdrLen := by
    simp only [hdrLen, maxOut] at hmin hmax ⊢
    omega
  rw [transferLen, hmod]

namespace Client

variable {k l m : Client} {size : ℕ} {c : Fin 8} {first : UInt8} {before : List (List UInt8)}

/-- The message is on its way, in transfers with the sizes and the numbers of `Filled`, or all of it
has been accepted. -/
def Filling (k : Client) (size : ℕ) (c : Fin 8) (first : UInt8) (before : List (List UInt8)) :
    Prop :=
  (∃ done x, k.tx = some x ∧ x.chan = c ∧ k.sent = before ++ done ∧
    (k.sh2.shtp.chan c).nextOutSeq = first + UInt8.ofNat (done.length + 1) ∧
    Filled size c first (done ++ [x.transfer]) x.rest) ∨
  (k.tx = none ∧ ∃ ts, k.sent = before ++ ts ∧ Filled size c first ts [])

theorem filling_of_transmit {data : List UInt8} {done : List (List UInt8)}
    (hmin : hdrLen < k.sh2.shtp.outMaxTransfer) (hmax : k.sh2.shtp.outMaxTransfer ≤ maxOut)
    (hsent : k.sent = before ++ done)
    (hseq : (k.sh2.shtp.chan c).nextOutSeq = first + UInt8.ofNat done.length)
    (hdone : Filled k.sh2.shtp.outMaxTransfer c first done data)
    (h : k.transmit c data (decide (done ≠ [])) = some l) :
    l.Filling k.sh2.shtp.outMaxTransfer c first before := by
  unfold transmit at h
  split_ifs at h with hdata
  · obtain rfl := Option.some.inj h
    exact .inr ⟨rfl, done, hsent, hdata ▸ hdone⟩
  · obtain ⟨⟨v, x⟩, hv, rfl⟩ := Option.map_eq_some_iff.mp h
    unfold Shtp.stage at hv
    simp only at hv
    split_ifs at hv
    obtain ⟨rfl, rfl⟩ := Prod.mk.inj (Option.some.inj hv)
    have hnext := hdone.concat hmin hdata (Shtp.transferLen_eq hmin hmax data)
    rw [← hseq] at hnext
    refine .inl ⟨done, _, rfl, rfl, hsent, ?_, hnext⟩
    simp only [Shtp.countOut, Function.update_self, hseq]
    rw [UInt8.ofNat_add, ← UInt8.add_assoc]
    rfl

/-- A service in which no advertisement arrives changes of the transfer size and of the tables only
the numbers that are expected. -/
theorem tables_of_service {transfer : List UInt8} {t : UInt32} (hok : k.sh2.Ok)
    (hroute : ∀ f ∈ receivedPieces [.service transfer t],
      (k.sh2.shtp.chan f.chan).callback ≠ some .shtpCmdListener)
    (h : step k (.service transfer t) = some l) :
    l.sh2.shtp.outMaxTransfer = k.sh2.shtp.outMaxTransfer ∧
      ∀ d, ∃ n, l.sh2.shtp.chan d = { k.sh2.shtp.chan d with nextInSeq := n } := by
  have hsame (hl : l.sh2 = k.sh2) : l.sh2.shtp.outMaxTransfer = k.sh2.shtp.outMaxTransfer ∧
      ∀ d, ∃ n, l.sh2.shtp.chan d = { k.sh2.shtp.chan d with nextInSeq := n } :=
    by rw [hl]; exact ⟨rfl, fun d => ⟨(k.sh2.shtp.chan d).nextInSeq, rfl⟩⟩
  have hservice : ∃ k' : Client, k'.sh2 = k.sh2 ∧ k'.service transfer t = some l := by
    simp only [step] at h
    split at h
    · exact ⟨k, rfl, h⟩
    · rename_i x hx
      split_ifs at h
      exact ⟨{ k with tx := some { x with retry := false } }, rfl, h⟩
  obtain ⟨k', hk, hservice⟩ := hservice
  obtain ⟨-, ⟨-, rfl⟩ | ⟨htransfer, hrx, -⟩⟩ := service_sh2 hservice
  · exact hsame hk
  · rw [hk] at hrx
    cases hx : piece listeners.length (transfer, t) with
    | none =>
      rw [rxAssemble_of_none (x := (transfer, t)) (hok.chanListener ▸ hx)] at hrx
      exact hsame (Option.some.inj hrx).symm
    | some f =>
      have hrec : receivedPieces [.service transfer t] = [f] := by
        cases transfer with
        | nil => exact absurd rfl htransfer
        | cons b bs => simp [receivedPieces, Act.received, hx]
      have hf := hroute f (hrec ▸ List.mem_singleton_self f)
      exact chan_of_rxAssemble (x := (transfer, t)) (hok.chanListener ▸ hx) (fun _ => hf) hrx

theorem outMaxTransfer_of_transmit {data : List UInt8} {continuation : Bool}
    (h : k.transmit c data continuation = some l) :
    l.sh2.shtp.outMaxTransfer = k.sh2.shtp.outMaxTransfer := by
  rw [(transmit_unheard h).shtp_eq]

/-- The state of a transmission, while the hub does not advertise. -/
structure Undisturbed (k : Client) (size : ℕ) (c : Fin 8) (first : UInt8)
    (before : List (List UInt8)) (callback : Fin 8 → Option Callback) : Prop where
  ok : k.sh2.Ok
  outMaxTransfer : k.sh2.shtp.outMaxTransfer = size
  callback : ∀ d, (k.sh2.shtp.chan d).callback = callback d
  filling : k.Filling size c first before

/-- A step of `txProcess`, or a message of the hub that is not an advertisement, is none. -/
theorem undisturbed_step {callback : Fin 8 → Option Callback} {a : Act} (hmin : hdrLen < size)
    (hmax : size ≤ maxOut) (ha : a.transmitting) (hk : k.Undisturbed size c first before callback)
    (hroute : ∀ f ∈ receivedPieces [a], callback f.chan ≠ some .shtpCmdListener)
    (h : step k a = some l) : l.Undisturbed size c first before callback := by
  have hok := ok_step hk.ok h
  cases a with
  | service transfer t =>
    obtain ⟨hsize, hchan⟩ := tables_of_service hk.ok (fun f hf => hk.callback _ ▸ hroute f hf) h
    obtain ⟨hsent, htx⟩ := tx_of_service h
    refine ⟨hok, hsize.trans hk.outMaxTransfer, fun d => ?_, ?_⟩
    · obtain ⟨n, hn⟩ := hchan d
      rw [hn, ← hk.callback d]
    · rcases hk.filling with ⟨done, x, hx, hc, hdone, hseq, hfilled⟩ | ⟨hnone, ts, hts, hfilled⟩
      · rcases htx with ⟨hnone, -⟩ | ⟨y, hy, hl⟩
        · exact absurd (hx.symm.trans hnone) (Option.some_ne_none x)
        · obtain rfl := Option.some.inj (hx.symm.trans hy)
          obtain ⟨n, hn⟩ := hchan c
          exact .inl ⟨done, _, hl, hc, hsent.trans hdone, by rw [hn]; exact hseq, hfilled⟩
      · rcases htx with ⟨-, hl⟩ | ⟨y, hy, -⟩
        · exact .inr ⟨hl, ts, hsent.trans hts, hfilled⟩
        · exact absurd (hy.symm.trans hnone) (Option.some_ne_none y)
  | write status =>
    have hsh2 := step_sh2 h
    simp only [Act.received] at hsh2
    refine ⟨hok, ?_, fun d => (hsh2.callback d).trans (hk.callback d), ?_⟩
    · rw [hsh2.shtp_eq]
      exact hk.outMaxTransfer
    simp only [step] at h
    split at h
    · cases h
    · rename_i x hx
      split_ifs at h
      rcases hk.filling with ⟨done, y, hy, hc, hdone, hseq, hfilled⟩ | ⟨hnone, -⟩
      · obtain rfl := Option.some.inj (hx.symm.trans hy)
        split at h
        · -- The transfer is accepted, and the next one is staged.
          have hcont : decide (done ++ [x.transfer] ≠ []) = true := by simp
          rw [← hcont, hc] at h
          have hsize : ({ k with sent := k.sent ++ [x.transfer] } :
            Client).sh2.shtp.outMaxTransfer = size :=
            hk.outMaxTransfer
          rw [← hsize] at hmin hmax hfilled ⊢
          refine filling_of_transmit hmin hmax ?_ ?_ hfilled h
          · simp only [hdone, List.append_assoc]
          · rw [List.length_append]
            exact hseq
        · obtain rfl := Option.some.inj h
          exact .inl ⟨done, _, rfl, hc, hdone, hseq, hfilled⟩
        · exact absurd rfl ha
      · exact absurd (hx.symm.trans hnone) (Option.some_ne_none x)
  | setSensorCallback => exact absurd ha id
  | getProdIds => exact absurd ha id
  | abandon => exact absurd ha id
  | send channel payload => exact absurd ha id

theorem receivedPieces_cons (a : Act) (as : List Act) :
    receivedPieces (a :: as) = receivedPieces [a] ++ receivedPieces as := by
  rw [receivedPieces, ← List.singleton_append, List.filterMap_append, List.filterMap_append]
  rfl

theorem undisturbed_of_run {callback : Fin 8 → Option Callback} {as : List Act}
    (hmin : hdrLen < size) (hmax : size ≤ maxOut)
    (hm : m.Undisturbed size c first before callback) (has : ∀ a ∈ as, a.transmitting)
    (hroute : ∀ f ∈ receivedPieces as, callback f.chan ≠ some .shtpCmdListener)
    (h : Machine.run step m as = some l) : l.Undisturbed size c first before callback := by
  induction as generalizing m with
  | nil => exact Option.some.inj h ▸ hm
  | cons a as ih =>
    obtain ⟨n, hn, h⟩ := Option.bind_eq_some_iff.mp h
    rw [receivedPieces_cons] at hroute
    exact ih (undisturbed_step hmin hmax (has a List.mem_cons_self) hm
        (fun f hf => hroute f (List.mem_append_left _ hf)) hn)
      (fun b hb => has b (List.mem_cons_of_mem a hb))
      (fun f hf => hroute f (List.mem_append_right _ hf)) h

theorem Undisturbed.filled {callback : Fin 8 → Option Callback}
    (hl : l.Undisturbed size c first before callback) (hidle : l.tx = none) :
    ∃ ts, l.sent = before ++ ts ∧ Filled size c first ts [] := by
  rcases hl.filling with ⟨done, x, hx, -⟩ | ⟨-, hts⟩
  exacts [absurd (hx.symm.trans hidle) (Option.some_ne_none x), hts]

/-- A message is sent from a reachable state. -/
theorem undisturbed_of_send {channel : UInt8} {payload : List UInt8} (hk : k.Reachable)
    (hchan : channel.toNat < 8) (hlen : payload.length ≤ k.sh2.shtp.outMaxPayload)
    (hmin : hdrLen < k.sh2.shtp.outMaxTransfer)
    (hsend : step k (.send channel payload) = some m) :
    m.Undisturbed k.sh2.shtp.outMaxTransfer ⟨channel.toNat, hchan⟩
      (k.sh2.shtp.chan ⟨channel.toNat, hchan⟩).nextOutSeq k.sent
      fun d => (k.sh2.shtp.chan d).callback := by
  have htransmit := transmit_of_send hchan hlen hsend
  have hunheard := transmit_unheard htransmit
  exact ⟨hk.ok.of_unheard hunheard, outMaxTransfer_of_transmit htransmit, hunheard.callback,
    filling_of_transmit hmin hk.ok.outMaxTransfer (List.append_nil _).symm (UInt8.add_zero _).symm
      (filled_nil _ _ _ _) htransmit⟩

/-- **The transfers are filled up and numbered without a gap**, while the hub does not advertise:
behind its header, every transfer but the last one takes as much of the message as the hub has
announced to accept, and the numbers carry on those of the channel. -/
theorem send_filled {channel : UInt8} {payload : List UInt8} {as : List Act} (hk : k.Reachable)
    (hchan : channel.toNat < 8) (hlen : payload.length ≤ k.sh2.shtp.outMaxPayload)
    (hmin : hdrLen < k.sh2.shtp.outMaxTransfer)
    (hsend : step k (.send channel payload) = some m) (has : ∀ a ∈ as, a.transmitting)
    (hroute : ∀ f ∈ receivedPieces as,
      (k.sh2.shtp.chan f.chan).callback ≠ some .shtpCmdListener)
    (h : Machine.run step m as = some l) (hl : l.tx = none) :
    ∃ ts, l.sent = k.sent ++ ts ∧
      Filled k.sh2.shtp.outMaxTransfer ⟨channel.toNat, hchan⟩
        (k.sh2.shtp.chan ⟨channel.toNat, hchan⟩).nextOutSeq ts [] :=
  have hm := undisturbed_of_send hk hchan hlen hmin hsend
  (undisturbed_of_run hmin hk.ok.outMaxTransfer hm has hroute h).filled hl

/-- A message that does not fit in one transfer, and an empty service of the hub. -/
theorem send_filled_two : ∃ m l : Client,
    step start (.send 2 (List.replicate 253 7)) = some m ∧
      Machine.run step m [.write .accepted, .write .busy, .service [] 0, .write .accepted] =
        some l ∧
      ∃ ts, l.sent = start.sent ++ ts ∧ Filled 256 2 0 ts [] := by
  obtain ⟨l, hl, hidle⟩ := (Option.any_eq_true (fun l : Client => decide (l.tx = none))
    ((step start (.send 2 (List.replicate 253 7))).bind fun m =>
      Machine.run step m [.write .accepted, .write .busy, .service [] 0, .write .accepted])).mp
    (by decide +kernel)
  obtain ⟨m, hm, hrun⟩ := Option.bind_eq_some_iff.mp hl
  exact ⟨m, l, hm, hrun, send_filled ⟨[], rfl⟩ (by decide) (by decide +kernel) (by decide) hm
    (by simp [Act.transmitting]) (by simp [receivedPieces, Act.received]) hrun
    (of_decide_eq_true hidle)⟩

end Client

/-! ### The same transfers, received -/

/-- A transfer of `txProcess` leaves nothing of its message, as far as its header says. -/
theorem IsTransfer.piece {n : ℕ} {c : Fin 8} {continuation : Bool} {transfer : List UInt8}
    (h : IsTransfer c continuation transfer) (hc : c.val < n) (t : UInt32) :
    ∃ f, Imu.piece n (transfer, t) = some f ∧ f.chan = c ∧ f.continuation = continuation ∧
      f.left = 0 ∧ f.data = (transfer.drop hdrLen, t) ∧ Starts f := by
  obtain ⟨seq, part, rfl, hlen⟩ := h
  have hval : (UInt8.ofNat c.val).toNat = c.val := by
    rw [UInt8.toNat_ofNat']
    omega
  have hchan : Sh2.channel n (outHeader c seq part continuation) = some c := by
    simp [Sh2.channel, outHeader, hval, hc]
  have hbody : body (outHeader c seq part continuation)
      ((outHeader c seq part continuation).encode ++ part) = part :=
    body_encode (Nat.add_comm _ _).le
  have hsmall : (outHeader c seq part continuation).payloadLen < 0x8000 := hlen.trans_lt (by decide)
  refine ⟨⟨c, seq, continuation, 0, (part, t)⟩, piece_eq_some_iff.mpr
    ⟨_, header_encode hsmall part, (Nat.le_add_left _ _).not_gt, hchan, rfl, rfl, ?_, ?_⟩, rfl, rfl,
    rfl, rfl, ?_⟩
  · rw [hbody]
    simp [outHeader]
  · rw [hbody]
  · simp only [Starts, maxOut, maxIn] at hlen ⊢
    omega

namespace Client

variable {k l m r u : Client}

/-- The calls for the transfers of a message. -/
theorem calls_of_transmits {c : Fin 8} {payload : List UInt8} {ts : List (List UInt8)} {t : UInt32}
    {cb : Callback} (hr : r.Reachable) (hts : Transmits c payload ts)
    (hc : c.val < listeners.length) (hcb : (r.sh2.shtp.chan c).callback = some cb)
    (hne : cb ≠ .shtpCmdListener)
    (h : Machine.run step r (ts.map fun transfer => .service transfer t) = some u) :
    u.sh2.calls = r.sh2.calls ++ ts.map fun transfer => ⟨cb, transfer.drop hdrLen, t⟩ := by
  obtain ⟨p, hp⟩ := hr.exists_assembles
  have hpiece (i : ℕ) (transfer : List UInt8) (ht : ts[i]? = some transfer) :=
    (hts.transfer i transfer ht).piece hc t
  have hreceived : receivedPieces (ts.map fun transfer => .service transfer t) =
      ts.filterMap fun transfer => Imu.piece listeners.length (transfer, t) := by
    rw [receivedPieces, List.filterMap_map, List.filterMap_filterMap]
    refine List.filterMap_congr fun transfer htransfer => ?_
    obtain ⟨i, hi⟩ := List.getElem?_of_mem htransfer
    obtain ⟨seq, part, rfl, -⟩ := hts.transfer i transfer hi
    rfl
  have hmem (f : Piece) (hf : f ∈ receivedPieces (ts.map fun transfer => .service transfer t)) :
      f.chan = c ∧ f.left = 0 ∧ Starts f := by
    rw [hreceived] at hf
    obtain ⟨transfer, htransfer, hf⟩ := List.mem_filterMap.mp hf
    obtain ⟨i, hi⟩ := List.getElem?_of_mem htransfer
    obtain ⟨g, hg, hchan, -, hleft, -, hstarts⟩ := hpiece i transfer hi
    obtain rfl := Option.some.inj (hg.symm.trans hf)
    exact ⟨hchan, hleft, hstarts⟩
  have hroute : ∀ f ∈ receivedPieces (ts.map fun transfer => .service transfer t),
      (r.sh2.shtp.chan f.chan).callback ≠ some .shtpCmdListener := fun f hf => by
    rw [(hmem f hf).1, hcb]
    exact fun he => hne (Option.some.inj he)
  have hnew : ∀ f ∈ (receivedPieces (ts.map fun transfer => .service transfer t)).head?,
      f.continuation = false := by
    rw [hreceived]
    cases ts with
    | nil => simp
    | cons transfer ts =>
      obtain ⟨f, hf, -, hcont, -⟩ := hpiece 0 transfer rfl
      simp [hf, hcont]
  have hassemble : (assemble (· + 1) Starts p _).2 = _ :=
    assemble_singletons (fun f hf => (hmem f hf).2) (.inr hnew)
  have hcalled := called_of_run hr.ok hp (fun f hf _ => hroute f (List.mem_of_mem_dropLast hf)) h
  rw [hcalled.calls, hassemble, hreceived]
  rw [List.filterMap_map, List.filterMap_filterMap, ← List.filterMap_eq_map]
  refine congrArg _ (List.filterMap_congr fun transfer htransfer => ?_)
  obtain ⟨i, hi⟩ := List.getElem?_of_mem htransfer
  obtain ⟨f, hf, hchan, -, -, hdata, -⟩ := hpiece i transfer hi
  simp [hf, callOf, hchan, hcb, hdata, bytesOf]

/-- **A receiver such as `rxAssemble` takes each transfer for a message of its own**, and so it gets
a message as a whole exactly if the message fits in one transfer. -/
theorem received_whole_iff {channel : UInt8} {payload : List UInt8} {as : List Act}
    {ts : List (List UInt8)} {t : UInt32} {cb : Callback} (hk : k.Reachable)
    (hchan : channel.toNat < listeners.length) (hpayload : payload ≠ [])
    (hlen : payload.length ≤ k.sh2.shtp.outMaxPayload)
    (hmin : hdrLen < k.sh2.shtp.outMaxTransfer)
    (hsend : step k (.send channel payload) = some m) (has : ∀ a ∈ as, a.transmitting)
    (hroute : ∀ f ∈ receivedPieces as,
      (k.sh2.shtp.chan f.chan).callback ≠ some .shtpCmdListener)
    (h : Machine.run step m as = some l) (hl : l.tx = none) (hts : l.sent = k.sent ++ ts)
    (hr : r.Reachable)
    (hcb : (r.sh2.shtp.chan ⟨channel.toNat, hchan.trans (by decide)⟩).callback = some cb)
    (hne : cb ≠ .shtpCmdListener)
    (hu : Machine.run step r (ts.map fun transfer => .service transfer t) = some u) :
    (u.sh2.calls = r.sh2.calls ++ ts.map fun transfer => ⟨cb, transfer.drop hdrLen, t⟩) ∧
      (u.sh2.calls = r.sh2.calls ++ [⟨cb, payload, t⟩] ↔
        payload.length + hdrLen ≤ k.sh2.shtp.outMaxTransfer) := by
  have hchan8 : channel.toNat < 8 := hchan.trans (by decide)
  have hm : m.Transmitting ⟨channel.toNat, hchan8⟩ ([] ++ payload) k.sent :=
    transmitting_of_transmit (List.append_nil _).symm (transmits_nil _)
      (transmit_of_send hchan8 hlen hsend)
  obtain ⟨ts₁, hts₁, htransmits⟩ := (transmitting_of_run hm has h).transmits hl
  have hm := undisturbed_of_send hk hchan8 hlen hmin hsend
  obtain ⟨ts₂, hts₂, hfilled⟩ :=
    (undisturbed_of_run hmin hk.ok.outMaxTransfer hm has hroute h).filled hl
  obtain rfl := List.append_cancel_left (hts.symm.trans hts₁)
  obtain rfl := List.append_cancel_left (hts.symm.trans hts₂)
  have hcalls := calls_of_transmits hr htransmits hchan hcb hne hu
  refine ⟨hcalls, ?_⟩
  have hbytes : ts.flatMap (List.drop hdrLen) = payload := htransmits.bytes
  have hpart (i : ℕ) (transfer : List UInt8) (hi : ts[i]? = some transfer) :
      ∃ part, transfer.drop hdrLen = part ∧ part ≠ [] ∧
        part.length + hdrLen ≤ k.sh2.shtp.outMaxTransfer ∧
        (part.length + hdrLen = k.sh2.shtp.outMaxTransfer ∨ i + 1 = ts.length) := by
    obtain ⟨part, rfl, hne, hle, hfull⟩ := hfilled i transfer hi
    exact ⟨part, rfl, hne, hle, hfull.imp_right And.left⟩
  rw [hcalls, List.append_right_inj]
  rcases ts with _ | ⟨transfer, _ | ⟨transfer', ts⟩⟩
  · exact absurd hbytes.symm hpayload
  · obtain ⟨part, rfl, -, hle, -⟩ := hpart 0 transfer rfl
    rw [List.flatMap_singleton] at hbytes
    rw [hbytes] at hle
    exact iff_of_true (by rw [List.map_singleton, hbytes]) hle
  · obtain ⟨part, rfl, -, -, hfull⟩ := hpart 0 transfer rfl
    obtain ⟨part', rfl, hne', -⟩ := hpart 1 transfer' rfl
    refine iff_of_false (fun hone => by simp at hone) fun hfits => ?_
    have hpos := List.length_pos_iff.mpr hne'
    rw [List.flatMap_cons, List.flatMap_cons] at hbytes
    rw [← hbytes, List.length_append, List.length_append] at hfits
    rcases hfull with hfull | hlast
    · omega
    · simp at hlast

/-- A message is sent with the writes `writes`, and a receiver that was told of the channels takes
its transfers. -/
structure Exchange (payload : List UInt8) (writes : List Act) (m l r u : Client) : Prop where
  send : step start (.send 2 payload) = some m
  written : Machine.run step m writes = some l
  idle : l.tx = none
  advertised : Machine.run step start [.service advertisement 0] = some r
  received : Machine.run step r (l.sent.map fun transfer => .service transfer 0) = some u

theorem exists_exchange {payload : List UInt8} {writes : List Act}
    (h : ((step start (.send 2 payload)).bind fun m => (Machine.run step m writes).bind fun l =>
      if l.tx = none then
        (Machine.run step start [.service advertisement 0]).bind fun r =>
          Machine.run step r (l.sent.map fun transfer => .service transfer 0)
      else none).isSome) :
    ∃ m l r u, Exchange payload writes m l r u := by
  obtain ⟨u, hu⟩ := Option.isSome_iff_exists.mp h
  obtain ⟨m, hm, hu⟩ := Option.bind_eq_some_iff.mp hu
  obtain ⟨l, hl, hu⟩ := Option.bind_eq_some_iff.mp hu
  split_ifs at hu with hidle
  obtain ⟨r, hr, hu⟩ := Option.bind_eq_some_iff.mp hu
  exact ⟨m, l, r, u, hm, hl, hidle, hr, hu⟩

/-- A message of 252 bytes takes one transfer, and one of 253 bytes two. -/
theorem received_whole_iff_two :
    (∃ m l r u, Exchange (List.replicate 252 7) [.write .accepted] m l r u ∧
      u.sh2.calls = r.sh2.calls ++ [⟨.sensorhubControlHdlr, List.replicate 252 7, 0⟩]) ∧
    ∃ m l r u, Exchange (List.replicate 253 7) [.write .accepted, .write .accepted] m l r u ∧
      ¬ u.sh2.calls = r.sh2.calls ++ [⟨.sensorhubControlHdlr, List.replicate 253 7, 0⟩] := by
  obtain ⟨r', hr, hadvert, hcb, -⟩ := exists_advertised
  constructor
  · obtain ⟨m, l, r, u, hx⟩ : ∃ m l r u,
        Exchange (List.replicate 252 7) [.write .accepted] m l r u :=
      exists_exchange (by decide +kernel)
    obtain rfl := Option.some.inj (hadvert.symm.trans hx.advertised)
    exact ⟨m, l, r', u, hx, ((received_whole_iff ⟨[], rfl⟩ (by decide) (by decide +kernel)
      (by decide +kernel) (by decide) hx.send (by simp [Act.transmitting])
      (by simp [receivedPieces, Act.received]) hx.written hx.idle rfl hr hcb (by decide)
      hx.received).2).mpr (by decide +kernel)⟩
  · obtain ⟨m, l, r, u, hx⟩ : ∃ m l r u,
        Exchange (List.replicate 253 7) [.write .accepted, .write .accepted] m l r u :=
      exists_exchange (by decide +kernel)
    obtain rfl := Option.some.inj (hadvert.symm.trans hx.advertised)
    refine ⟨m, l, r', u, hx, fun h => ?_⟩
    have hfits := ((received_whole_iff ⟨[], rfl⟩ (by decide) (by decide +kernel)
      (by decide +kernel) (by decide) hx.send (by simp [Act.transmitting])
      (by simp [receivedPieces, Act.received]) hx.written hx.idle rfl hr hcb (by decide)
      hx.received).2).mp h
    exact absurd hfits (by decide +kernel)

end Client

end PicoUros.Imu
