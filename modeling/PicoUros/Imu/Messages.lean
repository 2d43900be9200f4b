import PicoUros.Imu.Assembly

/-!
# The messages of the hub

The hub cuts a message in parts and sends each part in a transfer. The length in the header is that
of what is left of the message, with the header. All transfers but the first are continuations, and
their numbers count up modulo 256.

## Main definitions

* `transfersOf`, `Message`: the transfers of a message, cut anywhere.
* `LengthRule`: a continuation does not have more left than the transfer before it.

## Main results

* `Client.messages_delivered`: the function of a channel is called with the messages that the hub
  sent there, once each, in order, as a whole.
* `Client.copyInBounds_of_lengthRule`: a copy into `inPayload` stays in bounds while the hub keeps
  the length rule.
-/

namespace PicoUros.Imu

open Fragment

/-! ### Transfers -/

theorem header_encode {h : Header} (hlen : h.payloadLen < 0x8000) (part : List UInt8) :
    header (h.encode ++ part) = some h := by
  obtain ⟨n, continuation, chan, seq⟩ := h
  simp only at hlen
  have hlow : (UInt8.ofNat n).toNat = n % 256 := UInt8.toNat_ofNat'
  simp only [Header.encode, header, List.cons_append, Option.some.injEq, Header.mk.injEq, hlow,
    UInt8.toNat_ofNat', and_true]
  cases continuation with
  | false => exact ⟨by simp; omega, by simp; omega⟩
  | true => exact ⟨by simp; omega, by simp; omega⟩

theorem length_encode (h : Header) : h.encode.length = hdrLen := rfl

theorem body_encode {h : Header} {part : List UInt8} (hlen : hdrLen + part.length ≤ h.payloadLen) :
    body h (h.encode ++ part) = part := by
  have htake : (h.encode ++ part).take h.payloadLen = h.encode ++ part :=
    List.take_of_length_le (by rw [List.length_append, length_encode]; exact hlen)
  rw [body, htake]
  rfl

/-- The header of a transfer with `part`, when `rest` is left of the message. -/
def partHeader (c : Fin 8) (seq : UInt8) (continuation : Bool) (part : List UInt8)
    (rest : List (List UInt8 × UInt32)) : Header :=
  ⟨hdrLen + part.length + (rest.flatMap Prod.fst).length, continuation, UInt8.ofNat c, seq⟩

/-- The transfers for the parts of a message, with their times. -/
def transfersOf (c : Fin 8) : UInt8 → Bool → List (List UInt8 × UInt32) →
    List (List UInt8 × UInt32)
  | _, _, [] => []
  | seq, continuation, (part, t) :: rest =>
    ((partHeader c seq continuation part rest).encode ++ part, t) ::
      transfersOf c (seq + 1) true rest

/-- The pieces for the parts of a message. -/
def piecesOf (c : Fin 8) : UInt8 → Bool → List (List UInt8 × UInt32) → List Piece
  | _, _, [] => []
  | seq, continuation, (part, t) :: rest =>
    { chan := c
      seq := seq
      continuation := continuation
      left := (rest.flatMap Prod.fst).length
      data := (part, t) } :: piecesOf c (seq + 1) true rest

/-- The transfers of a message are valid on a channel in use. -/
theorem filterMap_piece_transfersOf {n : ℕ} {c : Fin 8} (hc : c.val < n) {seq : UInt8}
    {continuation : Bool} {parts : List (List UInt8 × UInt32)}
    (hfit : hdrLen + (parts.flatMap Prod.fst).length < 0x8000) :
    (transfersOf c seq continuation parts).filterMap (piece n) =
      piecesOf c seq continuation parts := by
  induction parts generalizing seq continuation with
  | nil => rfl
  | cons x parts ih =>
    obtain ⟨part, t⟩ := x
    simp only [List.flatMap_cons, List.length_append] at hfit
    have hchan : Sh2.channel n (partHeader c seq continuation part parts) = some c := by
      have hval : (UInt8.ofNat c.val).toNat = c.val := by
        rw [UInt8.toNat_ofNat']
        omega
      simp [Sh2.channel, partHeader, hval, hc]
    have hpiece : piece n ((partHeader c seq continuation part parts).encode ++ part, t) =
        some ⟨c, seq, continuation, (parts.flatMap Prod.fst).length, (part, t)⟩ := by
      rw [piece_eq_some_iff]
      have hlen : (partHeader c seq continuation part parts).payloadLen =
        hdrLen + part.length + (parts.flatMap Prod.fst).length := rfl
      have hbody : body (partHeader c seq continuation part parts)
          ((partHeader c seq continuation part parts).encode ++ part) = part :=
        body_encode (by rw [hlen]; omega)
      refine ⟨_, header_encode (by rw [hlen]; omega) part, by rw [hlen]; omega, hchan, rfl, rfl, ?_,
        ?_⟩
      · simp only [hbody, hlen]
        omega
      · rw [hbody]
    rw [transfersOf, piecesOf, List.filterMap_cons_some hpiece, ih (by omega)]

/-- Behind a transfer that leaves something, the pieces of the rest carry the message on. -/
theorem isChain_piecesOf {c : Fin 8} {seq : UInt8} {continuation : Bool} {x : List UInt8 × UInt32}
    {rest : List (List UInt8 × UInt32)} (hrest : ∀ y ∈ rest, y.1 ≠ []) :
    (piecesOf c seq continuation (x :: rest)).IsChain (Continues (· + 1)) := by
  induction rest generalizing seq continuation x with
  | nil => exact .singleton _
  | cons y rest ih =>
    have hy := hrest y List.mem_cons_self
    refine .cons_cons ⟨?_, rfl, rfl, rfl⟩ (ih fun z hz => hrest z (List.mem_cons_of_mem y hz))
    simp [hy]

theorem getLast?_piecesOf (c : Fin 8) (seq : UInt8) (continuation : Bool) (x : List UInt8 × UInt32)
    (rest : List (List UInt8 × UInt32)) :
    ∃ f ∈ (piecesOf c seq continuation (x :: rest)).getLast?, f.left = 0 ∧ f.chan = c := by
  induction rest generalizing seq continuation x with
  | nil => exact ⟨_, rfl, rfl, rfl⟩
  | cons y rest ih =>
    obtain ⟨f, hf, hlast⟩ := ih (seq + 1) true y
    exact ⟨f, by rw [piecesOf, piecesOf, List.getLast?_cons_cons]; exact hf, hlast⟩

theorem bytesOf_piecesOf (c : Fin 8) (seq : UInt8) (continuation : Bool)
    (parts : List (List UInt8 × UInt32)) :
    bytesOf (piecesOf c seq continuation parts) = parts.flatMap Prod.fst := by
  induction parts generalizing seq continuation with
  | nil => rfl
  | cons x parts ih => exact congrArg (x.1 ++ ·) (ih (seq + 1) true)

/-- A message of the hub. Its first transfer has the number `seq`, and may be empty. -/
structure Message where
  chan : Fin 8
  seq : UInt8
  first : List UInt8 × UInt32
  rest : List (List UInt8 × UInt32)
  rest_ne_nil : ∀ x ∈ rest, x.1 ≠ []
  fits : hdrLen + ((first :: rest).flatMap Prod.fst).length ≤ maxIn

namespace Message

variable (m : Message)

def bytes : List UInt8 := (m.first :: m.rest).flatMap Prod.fst

def transfers : List (List UInt8 × UInt32) := transfersOf m.chan m.seq false (m.first :: m.rest)

def pieces : List Piece := piecesOf m.chan m.seq false (m.first :: m.rest)

theorem complete : Complete (· + 1) Starts m.pieces where
  chain := isChain_piecesOf m.rest_ne_nil
  head := by
    refine ⟨_, rfl, ?_⟩
    have hfits := m.fits
    simp only [List.flatMap_cons, List.length_append] at hfits
    change (m.rest.flatMap Prod.fst).length + m.first.1.length + hdrLen ≤ maxIn
    omega
  last := by
    obtain ⟨f, hf, hleft, -⟩ := getLast?_piecesOf m.chan m.seq false m.first m.rest
    exact ⟨f, hf, hleft⟩

theorem callOf_pieces {s : Shtp} {cb : Callback} (hcb : (s.chan m.chan).callback = some cb) :
    callOf s m.pieces = some ⟨cb, m.bytes, m.first.2⟩ := by
  obtain ⟨f, hf, -, hchan⟩ := getLast?_piecesOf m.chan m.seq false m.first m.rest
  have hbytes : bytesOf m.pieces = m.bytes := bytesOf_piecesOf _ _ _ _
  have hlast : m.pieces.getLast? = some f := hf
  rw [callOf, hlast, Option.bind_some, hchan, hcb, hbytes]
  rfl

theorem chan_of_mem_pieces {f : Piece} (hf : f ∈ m.pieces) : f.chan = m.chan := by
  have hparts (seq : UInt8) (continuation : Bool) (parts : List (List UInt8 × UInt32))
      (hf : f ∈ piecesOf m.chan seq continuation parts) : f.chan = m.chan := by
    induction parts generalizing seq continuation with
    | nil => cases hf
    | cons x parts ih =>
      rcases List.mem_cons.mp hf with rfl | hf
      exacts [rfl, ih _ _ hf]
  exact hparts _ _ _ hf

end Message

/-- The pieces of the messages, when they are sent one behind the other. -/
theorem filterMap_piece_messages {n : ℕ} {ms : List Message} (hms : ∀ m ∈ ms, m.chan.val < n) :
    (ms.flatMap Message.transfers).filterMap (piece n) = (ms.map Message.pieces).flatten := by
  induction ms with
  | nil => rfl
  | cons m ms ih =>
    have hfits := m.fits
    have hsmall : hdrLen + ((m.first :: m.rest).flatMap Prod.fst).length < 0x8000 :=
      hfits.trans_lt (by decide)
    rw [List.flatMap_cons, List.filterMap_append,
      ih fun m' hm' => hms m' (List.mem_cons_of_mem m hm'),
      Message.transfers, filterMap_piece_transfersOf (hms m List.mem_cons_self) hsmall]
    rfl

namespace Client

variable {k l : Client}

theorem Reachable.exists_assembles (h : k.Reachable) : ∃ p, Assembles k.sh2 p := by
  obtain ⟨as, has⟩ := h
  exact ⟨_, (assembles_of_run .sh2Open (.nil rfl) has).1⟩

/-- The calls are made with the messages that the hub sent, if none but the last one is for the
command channel. -/
theorem called_of_messages {as : List Act} {ms : List Message} {route : Fin 8 → Callback}
    (hk : k.Reachable) (hms : as.filterMap Act.received = ms.flatMap Message.transfers)
    (hroute : ∀ m ∈ ms, m.chan.val < listeners.length ∧
      (k.sh2.shtp.chan m.chan).callback = some (route m.chan))
    (hcmd : ∀ m ∈ ms.dropLast, route m.chan ≠ .shtpCmdListener)
    (h : Machine.run step k as = some l) :
    k.sh2.CalledAll (ms.map fun m => ⟨route m.chan, m.bytes, m.first.2⟩) l.sh2 := by
  obtain ⟨p, hp⟩ := hk.exists_assembles
  have hpieces : receivedPieces as = (ms.map Message.pieces).flatten := by
    rw [receivedPieces, hms, filterMap_piece_messages fun m hm => (hroute m hm).1]
  have hchan : ∀ f ∈ (receivedPieces as).dropLast, f.left = 0 →
      (k.sh2.shtp.chan f.chan).callback ≠ some .shtpCmdListener := by
    intro f hf hleft
    have hmem : ∃ m ∈ ms.dropLast, f ∈ m.pieces := by
      rw [hpieces] at hf
      rcases List.eq_nil_or_concat' ms with rfl | ⟨ms, m, rfl⟩
      · cases hf
      · have hne : m.pieces ≠ [] := List.cons_ne_nil _ _
        rw [List.map_append, List.flatten_append, List.map_singleton, List.flatten_singleton,
          List.dropLast_append_of_ne_nil hne] at hf
        rw [List.dropLast_concat]
        rcases List.mem_append.mp hf with hf | hf
        · obtain ⟨_, hg, hf⟩ := List.mem_flatten.mp hf
          obtain ⟨m', hm', rfl⟩ := List.mem_map.mp hg
          exact ⟨m', hm', hf⟩
        · exact absurd hleft (left_ne_zero_of_mem_dropLast m.complete.chain hf)
    obtain ⟨m, hm, hf⟩ := hmem
    rw [m.chan_of_mem_pieces hf, (hroute m (List.mem_of_mem_dropLast hm)).2]
    exact fun he => hcmd m hm (Option.some.inj he)
  have hcomplete : ∀ g ∈ ms.map Message.pieces,
      Complete (· + 1) Starts g ∧ ∀ f ∈ g.head?, f.continuation = false := by
    intro g hg
    obtain ⟨m, -, rfl⟩ := List.mem_map.mp hg
    refine ⟨m.complete, fun f hf => ?_⟩
    exact Option.some.inj hf ▸ rfl
  have hcalls : (ms.map Message.pieces).filterMap (callOf k.sh2.shtp) =
      ms.map fun m => ⟨route m.chan, m.bytes, m.first.2⟩ := by
    rw [List.filterMap_map, ← List.filterMap_eq_map]
    exact List.filterMap_congr fun m hm => m.callOf_pieces (hroute m hm).2
  have hcalled := called_of_run hk.ok hp hchan h
  rwa [hpieces, assemble_flatten hcomplete, hcalls] at hcalled

/-- **The function of a channel is called with the messages that the hub sent there**, once each, in
order, as a whole, and with the time of the first transfer: however the messages were cut, whatever
numbers they start with, whatever was under construction before, and whatever is being sent. -/
theorem messages_delivered {as : List Act} {ms : List Message} {route : Fin 8 → Callback}
    (hk : k.Reachable) (hms : as.filterMap Act.received = ms.flatMap Message.transfers)
    (hroute : ∀ m ∈ ms, m.chan.val < listeners.length ∧
      (k.sh2.shtp.chan m.chan).callback = some (route m.chan) ∧
      route m.chan ≠ .shtpCmdListener)
    (h : Machine.run step k as = some l) :
    l.sh2.calls = k.sh2.calls ++ ms.map fun m => ⟨route m.chan, m.bytes, m.first.2⟩ :=
  (called_of_messages hk hms (fun m hm => ⟨(hroute m hm).1, (hroute m hm).2.1⟩)
    (fun m hm => (hroute m (List.mem_of_mem_dropLast hm)).2.2) h).calls

/-- An advertisement of the application `sensorhub` with its channel `control`, for which it gives
the number 2. -/
def advertisement : List UInt8 :=
  [24, 0, 0, 0, 0] ++ [1, 4, 2, 0, 0, 0] ++ [6, 1, 2] ++ [9, 8] ++ bytes "control" ++ [0]

/-- Behind this advertisement, the function of the channel 2 is that for `control`. -/
theorem exists_advertised : ∃ k : Client, k.Reachable ∧
    Machine.run step start [.service advertisement 0] = some k ∧
    (k.sh2.shtp.chan 2).callback = some .sensorhubControlHdlr ∧
    k.sh2.calls = [⟨.shtpCmdListener, advertisement.drop hdrLen, 0⟩] := by
  obtain ⟨k, hk, hadvert⟩ := (Option.any_eq_true (fun k : Client =>
    decide ((k.sh2.shtp.chan 2).callback = some .sensorhubControlHdlr ∧
      k.sh2.calls = [⟨.shtpCmdListener, advertisement.drop hdrLen, 0⟩]))
    (Machine.run step start [.service advertisement 0])).mp (by decide +kernel)
  exact ⟨k, ⟨_, hk⟩, hk, of_decide_eq_true hadvert⟩

/-- A response of the hub, cut in two parts. -/
def cutResponse : Message where
  chan := ⟨2, by decide⟩
  seq := 255
  first := ([0xF1, 0], 0)
  rest := [([0x84], 0)]
  rest_ne_nil := by decide
  fits := by decide

/-- It is delivered behind the advertisement. -/
theorem messages_delivered_cut : ∃ k l : Client, k.Reachable ∧
    Machine.run step k (cutResponse.transfers.map fun x => .service x.1 x.2) = some l ∧
    l.sh2.calls = k.sh2.calls ++ [⟨.sensorhubControlHdlr, [0xF1, 0, 0x84], 0⟩] := by
  obtain ⟨k, hk, hadvert, hcb, -⟩ := exists_advertised
  obtain ⟨l, hl⟩ := Option.isSome_iff_exists.mp (show (Machine.run step start
    (.service advertisement 0 :: cutResponse.transfers.map fun x => .service x.1 x.2)).isSome by
      decide +kernel)
  rw [← List.singleton_append, Machine.run_append, hadvert, Option.bind_some] at hl
  let route : Fin 8 → Callback := fun _ => .sensorhubControlHdlr
  have hroute : ∀ m ∈ [cutResponse], m.chan.val < listeners.length ∧
      (k.sh2.shtp.chan m.chan).callback = some (route m.chan) ∧
      route m.chan ≠ .shtpCmdListener := by
    simp only [List.mem_singleton, forall_eq]
    exact ⟨by decide, hcb, by decide⟩
  exact ⟨k, l, hk, hl, messages_delivered hk rfl hroute hl⟩

end Client

/-! ### Bounds -/

/-- A continuation has no more of the message than the transfer before it has left. -/
def LengthRule (fs : List Piece) : Prop :=
  fs.IsChain fun f g => Continues (· + 1) f g → g.left + g.data.1.length ≤ f.left

/-- Under the length rule the pieces of a message fit, with what is left behind them. -/
theorem length_add_left_le {p : List Piece} {f : Piece}
    (hchain : (p ++ [f]).IsChain (Continues (· + 1))) (hhead : ∀ g ∈ (p ++ [f]).head?, Starts g)
    (hrule : LengthRule (p ++ [f])) : (bytesOf (p ++ [f])).length + f.left + hdrLen ≤ maxIn := by
  induction p using List.reverseRecOn generalizing f with
  | nil =>
    have hf := hhead f rfl
    simp only [Starts] at hf
    simp only [List.nil_append, bytesOf, List.flatMap_cons, List.flatMap_nil, List.append_nil]
    omega
  | append_singleton p g ih =>
    have hheads : (p ++ [g] ++ [f]).head? = (p ++ [g]).head? := by
      cases p <;> rfl
    obtain ⟨hchain', -, hglue⟩ := List.isChain_append.mp hchain
    obtain ⟨hrule', -, hlast⟩ := List.isChain_append.mp hrule
    have hg := ih hchain' (hheads ▸ hhead) hrule'
    have hle := hlast g List.getLast?_concat f rfl (hglue g List.getLast?_concat f rfl)
    rw [bytesOf_concat, List.length_append]
    omega

/-- The copy that `rxAssemble` makes of a transfer stays within `inPayload`. -/
def Sh2.CopyInBounds (s : Sh2) (transfer : List UInt8) (t : UInt32) : Prop :=
  ∀ h c, header transfer = some h → hdrLen ≤ h.payloadLen →
    Sh2.channel s.shtp.chanListener.length h = some c →
    (s.shtp.discard h c).inRemaining = 0 ∧ maxIn < h.payloadLen ∨
      ((s.shtp.discard h c).startAssembly c t).inCursor + (body h transfer).length ≤ maxIn

/-- The copy passes the end of the buffer if the transfer carries on the message under construction,
and the message is then longer than the buffer. -/
theorem Assembles.copyInBounds_iff {s : Sh2} {p : List Piece} {f : Piece} {x : List UInt8 × UInt32}
    (ha : Assembles s p) (hx : piece s.shtp.chanListener.length x = some f) :
    s.CopyInBounds x.1 x.2 ↔ (Joins (· + 1) p f → (bytesOf (p ++ [f])).length ≤ maxIn) := by
  obtain ⟨h, hh, hlen, hc, hseq, hcont, hleft, hdata⟩ := piece_eq_some_iff.mp hx
  have hd := ha.discard hseq hcont
  have hstarts := starts_iff hlen hleft hdata
  have hbody : (body h x.1).length + hdrLen ≤ h.payloadLen := length_body_le hlen
  have hcopy : s.CopyInBounds x.1 x.2 ↔
      (s.shtp.discard h f.chan).inRemaining = 0 ∧ maxIn < h.payloadLen ∨
        ((s.shtp.discard h f.chan).startAssembly f.chan x.2).inCursor + (body h x.1).length ≤
          maxIn := by
    constructor
    · exact fun hcopy => hcopy h f.chan hh (not_lt.mp hlen) hc
    · rintro hcopy h' c' hh' - hc'
      obtain rfl := Option.some.inj (hh.symm.trans hh')
      obtain rfl := Option.some.inj (hc.symm.trans hc')
      exact hcopy
  rw [hcopy]
  by_cases hj : Joins (· + 1) p f
  · rw [if_pos hj] at hd
    obtain ⟨g, hg, -⟩ := id hj
    obtain ⟨hne, hrem, -⟩ := hd.last g hg
    have hrem0 : (s.shtp.discard h f.chan).inRemaining ≠ 0 := hrem ▸ hne
    have hp : p ≠ [] := hj.ne_nil
    have hcursor := hd.cursor hp
    simp only at hcursor
    simp only [hj, hrem0, false_and, false_or, Shtp.startAssembly, if_false, hcursor,
      bytesOf_concat, List.length_append, hdata, true_imp_iff]
  · rw [if_neg hj] at hd
    have hrem0 : (s.shtp.discard h f.chan).inRemaining = 0 := hd.idle rfl
    simp only [hj, hrem0, Shtp.startAssembly, if_true, false_imp_iff, iff_true, true_and]
    omega

namespace Client

variable {k : Client}

/-- **A copy into `inPayload` stays in bounds while the hub keeps the length rule.** -/
theorem copyInBounds_of_lengthRule {as : List Act} {transfer : List UInt8} {t : UInt32}
    (h : Machine.run step start as = some k)
    (hrule : LengthRule (receivedPieces as ++ (piece listeners.length (transfer, t)).toList)) :
    k.sh2.CopyInBounds transfer t := by
  have hok : k.sh2.Ok := Reachable.ok ⟨as, h⟩
  obtain ⟨hp, -⟩ := assembles_of_run .sh2Open (.nil rfl) h
  have hsuffix := assemble_suffix (· + 1) Starts [] (receivedPieces as)
  have hnil : Partial (· + 1) Starts [] := partial_nil
  have hpart := (assemble_blocks hnil (receivedPieces as)).1
  cases hpiece : piece listeners.length (transfer, t) with
  | none =>
    -- The transfer is not valid, and no copy is made.
    intro hd c hhd hlen hc
    have hsome : (piece listeners.length (transfer, t)).isSome := by
      simp [piece, hhd, hlen.not_gt, hok.chanListener ▸ hc]
    simp [hpiece] at hsome
  | some f =>
    refine (hp.copyInBounds_iff (hok.chanListener ▸ hpiece)).mpr fun hj => ?_
    have hrest : (assemble (· + 1) Starts [] (receivedPieces as)).1 ++ [f] <:+
        receivedPieces as ++ (piece listeners.length (transfer, t)).toList := by
      rw [hpiece]
      obtain ⟨pre, hpre⟩ := hsuffix
      exact ⟨pre, by rw [← List.append_assoc, hpre]; rfl⟩
    have hle := length_add_left_le (isChain_concat hpart.chain (.inr hj))
      (head?_concat (fun hnil => absurd hnil hj.ne_nil) hpart.head) (hrule.suffix hrest)
    omega

/-- The second half of a message, behind the first one. -/
theorem copyInBounds_of_lengthRule_two : ∃ k,
    Machine.run step start [.service [6, 0, 0, 0, 1] 0] = some k ∧
      k.sh2.CopyInBounds [5, 0x80, 0, 1, 2] 0 := by
  obtain ⟨k, hk⟩ := Option.isSome_iff_exists.mp (show (Machine.run step start
    [.service [6, 0, 0, 0, 1] 0]).isSome by decide +kernel)
  have hrule : LengthRule (receivedPieces [.service [6, 0, 0, 0, 1] 0] ++
      (piece listeners.length ([5, 0x80, 0, 1, 2], 0)).toList) := by
    unfold LengthRule
    decide +kernel
  exact ⟨k, hk, copyInBounds_of_lengthRule hk hrule⟩

end Client

end PicoUros.Imu
