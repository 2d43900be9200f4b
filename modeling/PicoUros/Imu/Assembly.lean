import PicoUros.Imu.Client
import PicoUros.Lib.Reassembly

/-!
# Messages are put together from their transfers

A valid transfer is a `Fragment`: its channel, its number, and its part of a message, with the time
at which it arrived. `rxAssemble` is a receiver of fragments in the sense of `Fragment.push`. Its
state keeps less than the receiver's, the bytes and the expected number instead of the fragments,
and `Assembles` says which fragments a state stands for.

## Main definitions

* `Piece`, `piece`: the fragment that a transfer is.
* `Assembles s p`: the message under construction in `s` consists of the pieces `p`.
* `Call.Carries call g`: the call is made with the message that the pieces `g` make up.

## Main results

* `Assembles.rxAssemble`: a transfer does to the pieces what `Fragment.push` does.
* `Client.calls_carry_messages`: **every message handed over is the whole of one message of the
  hub**, whatever transfers arrive, and whatever is being sent in between.
-/

namespace PicoUros.Imu

open Fragment

/-! ### Transfers as fragments -/

/-- A valid transfer: its part of the message, and the time. -/
abbrev Piece := Fragment (Fin 8) UInt8 (List UInt8 × UInt32)

/-- The fragment that a transfer is, when it is valid. -/
def piece (nextChanListener : ℕ) (x : List UInt8 × UInt32) : Option Piece :=
  (header x.1).bind fun h =>
    if h.payloadLen < hdrLen then none
    else
      (Sh2.channel nextChanListener h).map fun c =>
        { chan := c
          seq := h.seq
          continuation := h.continuation
          left := h.payloadLen - hdrLen - (body h x.1).length
          data := (body h x.1, x.2) }

/-- A message can be started with a transfer: it fits into `inPayload`. -/
def Starts (f : Piece) : Prop := f.left + f.data.1.length + hdrLen ≤ maxIn

instance : DecidablePred Starts := fun _ => inferInstanceAs (Decidable (_ ≤ _))

/-- The bytes of pieces. -/
def bytesOf (p : List Piece) : List UInt8 := p.flatMap fun f => f.data.1

@[simp] theorem bytesOf_nil : bytesOf [] = [] := rfl

theorem bytesOf_concat (p : List Piece) (f : Piece) :
    bytesOf (p ++ [f]) = bytesOf p ++ f.data.1 := by
  simp [bytesOf]

/-- The message under construction in `s` consists of the pieces `p`. -/
structure Assembles (s : Sh2) (p : List Piece) : Prop where
  idle : p = [] → s.shtp.inRemaining = 0
  last : ∀ f ∈ p.getLast?, f.left ≠ 0 ∧ s.shtp.inRemaining = f.left ∧ s.shtp.inChan = f.chan ∧
    (s.shtp.chan f.chan).nextInSeq = f.seq + 1
  cursor : p ≠ [] → s.shtp.inCursor = (bytesOf p).length
  message : p ≠ [] → s.shtp.message = bytesOf p
  stamp : ∀ f ∈ p.head?, s.shtp.inTimestamp = f.data.2

/-- The call with the message that the pieces make up, if there is a function for the channel. It
is made with the time of the first piece. -/
def callOf (s : Shtp) (g : List Piece) : Option Call :=
  g.getLast?.bind fun last => g.head?.bind fun first =>
    (s.chan last.chan).callback.map fun cb => ⟨cb, bytesOf g, first.data.2⟩

/-! ### The length of a part -/

theorem length_body_le {h : Header} {transfer : List UInt8} (hh : ¬ h.payloadLen < hdrLen) :
    (body h transfer).length + hdrLen ≤ h.payloadLen := by
  simp only [body, List.length_drop, List.length_take, hdrLen] at hh ⊢
  omega

/-- What a valid transfer is as a fragment. -/
theorem piece_eq_some_iff {n : ℕ} {x : List UInt8 × UInt32} {f : Piece} :
    piece n x = some f ↔ ∃ h, header x.1 = some h ∧ ¬ h.payloadLen < hdrLen ∧
      Sh2.channel n h = some f.chan ∧ f.seq = h.seq ∧ f.continuation = h.continuation ∧
      f.left = h.payloadLen - hdrLen - (body h x.1).length ∧ f.data = (body h x.1, x.2) := by
  constructor
  · intro hf
    obtain ⟨h, hh, hf⟩ := Option.bind_eq_some_iff.mp hf
    split_ifs at hf with hlen
    obtain ⟨c, hc, rfl⟩ := Option.map_eq_some_iff.mp hf
    exact ⟨h, hh, hlen, hc, rfl, rfl, rfl, rfl⟩
  · rintro ⟨h, hh, hlen, hc, hseq, hcont, hleft, hdata⟩
    cases f
    simp only at hc hseq hcont hleft hdata
    simp [piece, hh, hlen, hc, hseq, hcont, hleft, hdata]

/-- The messages that are admitted are those that fit. -/
theorem starts_iff {x : List UInt8 × UInt32} {f : Piece} {h : Header}
    (hlen : ¬ h.payloadLen < hdrLen) (hleft : f.left = h.payloadLen - hdrLen - (body h x.1).length)
    (hdata : f.data = (body h x.1, x.2)) : Starts f ↔ h.payloadLen ≤ maxIn := by
  have hle : (body h x.1).length + hdrLen ≤ h.payloadLen := length_body_le hlen
  simp only [Starts, hleft, hdata]
  omega

theorem discard_chanListener (s : Shtp) (h : Header) (c : Fin 8) :
    (s.discard h c).chanListener = s.chanListener := by
  unfold Shtp.discard
  split_ifs <;> rfl

theorem discard_chan (s : Shtp) (h : Header) (c : Fin 8) : (s.discard h c).chan = s.chan := by
  unfold Shtp.discard
  split_ifs <;> rfl

theorem agrees_discard (s : Shtp) (h : Header) (c : Fin 8) : s.Agrees (s.discard h c) := by
  refine .of_chan (discard_chan s h c) ?_
  unfold Shtp.discard
  split_ifs <;> rfl

/-- A transfer that is not valid is ignored. -/
theorem rxAssemble_of_none {s : Sh2} {x : List UInt8 × UInt32}
    (hx : piece s.shtp.chanListener.length x = none) : s.rxAssemble x.1 x.2 = some s := by
  unfold Sh2.rxAssemble
  split
  · rfl
  · rename_i h hh
    split_ifs with hlen
    · rfl
    · have hc : Sh2.channel s.shtp.chanListener.length h = none := by
        simpa [piece, hh, hlen] using hx
      rw [hc]

/-- What `rxAssemble` does with a valid transfer. -/
theorem rxAssemble_of_some {s : Sh2} {x : List UInt8 × UInt32} {f : Piece}
    (hx : piece s.shtp.chanListener.length x = some f) :
    ∃ h : Header, f.seq = h.seq ∧ f.continuation = h.continuation ∧
      f.left = h.payloadLen - hdrLen - f.data.1.length ∧
      s.rxAssemble x.1 x.2 =
        if (s.shtp.discard h f.chan).inRemaining = 0 ∧ ¬ Starts f then
          some { s with shtp := s.shtp.discard h f.chan }
        else { s with shtp := s.shtp.discard h f.chan }.receive h f.chan f.data.1 f.data.2 := by
  obtain ⟨h, hh, hlen, hc, hseq, hcont, hleft, hdata⟩ := piece_eq_some_iff.mp hx
  have hstarts := starts_iff hlen hleft hdata
  refine ⟨h, hseq, hcont, by rw [hleft, hdata], ?_⟩
  simp only [Sh2.rxAssemble, hh, if_neg hlen, hc, hstarts, not_le, hdata]

/-! ### One transfer -/

/-- Between `s` and `u` the call `c` is made, if there is one, with the message in `inPayload`.
Beside this only the transport protocol is changed, and the names of the channels are not. -/
def Sh2.Called (s : Sh2) (u : Sh2) : Option Call → Prop
  | none => u = { s with shtp := u.shtp } ∧ s.shtp.Agrees u.shtp
  | some c => ∃ v w, ({ s with shtp := v } : Sh2).call c.callback = some w ∧
      v.message = c.payload ∧ v.inCursor = c.payload.length ∧ v.inTimestamp = c.timestamp ∧
      u = { w with shtp := u.shtp } ∧ s.shtp.Agrees v ∧ w.shtp.Agrees u.shtp

theorem Sh2.Called.calls {s u : Sh2} {c : Option Call} (h : s.Called u c) :
    u.calls = s.calls ++ c.toList := by
  cases c with
  | none => exact (congrArg Sh2.calls h.1).trans (List.append_nil _).symm
  | some c =>
    obtain ⟨cb, payload, timestamp⟩ := c
    obtain ⟨v, w, hw, rfl, -, rfl, hu, -⟩ := h
    exact (congrArg Sh2.calls hu).trans (Sh2.call_keeps hw).calls

theorem Sh2.Called.of_agrees {s u : Sh2} {v : Shtp} {c : Option Call}
    (h : ({ s with shtp := v } : Sh2).Called u c) (hv : s.shtp.Agrees v) : s.Called u c := by
  cases c with
  | none => exact ⟨h.1, hv.trans h.2⟩
  | some c =>
    obtain ⟨v', w, hw, hmessage, hcursor, htime, hu, hagrees, hagrees'⟩ := h
    exact ⟨v', w, hw, hmessage, hcursor, htime, hu, hv.trans hagrees, hagrees'⟩

/-- The calls `cs` are made between `s` and `u`, and beside them nothing is heard of the hub. -/
inductive Sh2.CalledAll : Sh2 → List Call → Sh2 → Prop
  | refl (s : Sh2) : CalledAll s [] s
  | unheard {s t u : Sh2} {cs : List Call} (h : s.Unheard t) (h' : CalledAll t cs u) :
      CalledAll s cs u
  | called {s t u : Sh2} {c : Option Call} {cs : List Call} (h : s.Called t c)
      (h' : CalledAll t cs u) : CalledAll s (c.toList ++ cs) u

theorem Sh2.CalledAll.calls {s u : Sh2} {cs : List Call} (h : s.CalledAll cs u) :
    u.calls = s.calls ++ cs := by
  induction h with
  | refl s => exact (List.append_nil _).symm
  | unheard h _ ih => rw [ih, h.calls]
  | called h _ ih => rw [ih, h.calls, List.append_assoc]

namespace Assembles

variable {s u : Sh2} {p q : List Piece} {f : Piece} {h : Header} {x : List UInt8 × UInt32}

theorem nil (hs : s.shtp.inRemaining = 0) : Assembles s [] where
  idle := fun _ => hs
  last := by simp
  cursor := fun hne => absurd rfl hne
  message := fun hne => absurd rfl hne
  stamp := by simp

/-- The transfer fits with the message under construction if its fragment carries it on. -/
theorem continues_iff (ha : Assembles s p) (hseq : f.seq = h.seq)
    (hcont : f.continuation = h.continuation) :
    s.shtp.continues h f.chan = true ↔ Joins (· + 1) p f := by
  rcases List.eq_nil_or_concat' p with rfl | ⟨r, g, rfl⟩
  · refine iff_of_false ?_ not_joins_nil
    simp [Shtp.continues, ha.idle rfl]
  · obtain ⟨hleft, hrem, hchan, hnext⟩ := ha.last g List.getLast?_concat
    have hjoins : Joins (· + 1) (r ++ [g]) f ↔ Continues (· + 1) g f := by
      simp [Joins]
    rw [hjoins]
    simp only [Shtp.continues, hrem, hchan, Bool.and_eq_true, bne_iff_ne, decide_eq_true_eq,
      beq_iff_eq]
    constructor
    · rintro ⟨⟨⟨-, hc⟩, hg⟩, hs⟩
      exact ⟨hleft, hcont.trans hc, hg, by rw [hseq, hs, hg, hnext]⟩
    · rintro ⟨-, hc, hg, hs⟩
      exact ⟨⟨⟨hleft, hcont ▸ hc⟩, hg⟩, by rw [hg, hnext, ← hs, hseq]⟩

theorem discard (ha : Assembles s p) (hseq : f.seq = h.seq)
    (hcont : f.continuation = h.continuation) :
    Assembles { s with shtp := s.shtp.discard h f.chan } (if Joins (· + 1) p f then p else []) := by
  by_cases hj : Joins (· + 1) p f
  · rw [if_pos hj, Shtp.discard, if_pos ((ha.continues_iff hseq hcont).mpr hj)]
    exact ha
  · have hc := mt (ha.continues_iff hseq hcont).mp hj
    rw [if_neg hj, Shtp.discard, if_neg hc]
    exact .nil rfl

/-- The pieces with the fragment behind them, when it has been appended. -/
theorem append {v : Shtp} (ha : Assembles s q) (hj : q = [] ∨ Joins (· + 1) q f)
    (hv : (s.shtp.startAssembly f.chan f.data.2).append f.data.1 f.left = some v) :
    v.inRemaining = f.left ∧ v.inChan = f.chan ∧ v.inCursor = (bytesOf (q ++ [f])).length ∧
      v.message = bytesOf (q ++ [f]) ∧ (∀ g ∈ (q ++ [f]).head?, v.inTimestamp = g.data.2) ∧
      v.chan = s.shtp.chan ∧ v.chanListener = s.shtp.chanListener ∧
      v.appListener = s.shtp.appListener := by
  obtain ⟨b, hb, rfl⟩ := Option.map_eq_some_iff.mp hv
  have htake := Buffer.take_write hb
  rcases hj with rfl | hj
  · -- A new message.
    have hstart : s.shtp.startAssembly f.chan f.data.2 =
        { s.shtp with inTimestamp := f.data.2, inCursor := 0, inChan := f.chan } :=
      if_pos (ha.idle rfl)
    rw [hstart] at htake ⊢
    simp only [Nat.zero_add, List.take_zero, List.nil_append] at htake
    refine ⟨rfl, rfl, ?_, ?_, ?_, rfl, rfl, rfl⟩
    · simp [bytesOf]
    · simp [Shtp.message, bytesOf, htake]
    · rintro g hg
      exact Option.some.inj hg ▸ rfl
  · obtain ⟨g, hg, hc⟩ := hj
    obtain ⟨hleft, hrem, hchan, -⟩ := ha.last g hg
    have hne : q ≠ [] := fun hq => by simp [hq] at hg
    have hstart : s.shtp.startAssembly f.chan f.data.2 = s.shtp :=
      if_neg (hrem ▸ hleft)
    rw [hstart] at htake ⊢
    have hhead : (q ++ [f]).head? = q.head? := by
      cases q
      exacts [absurd rfl hne, rfl]
    refine ⟨rfl, hchan.trans hc.chan.symm, ?_, ?_, hhead ▸ ha.stamp, rfl, rfl, rfl⟩
    · rw [bytesOf_concat, List.length_append, ← ha.cursor hne]
    · rw [bytesOf_concat, ← ha.message hne]
      exact htake

/-- The fragment is put behind the pieces `q`, and the message is handed over if it is complete. -/
theorem receive (ha : Assembles s q) (hj : q = [] ∨ Joins (· + 1) q f) (hseq : f.seq = h.seq)
    (hleft : f.left = h.payloadLen - hdrLen - f.data.1.length)
    (hu : s.receive h f.chan f.data.1 f.data.2 = some u) :
    u.shtp.chanListener = s.shtp.chanListener ∧
      (f.left ≠ 0 ∧ Assembles u (q ++ [f]) ∧ s.Called u none ∨
        f.left = 0 ∧ Assembles u [] ∧ s.Called u (callOf s.shtp (q ++ [f]))) := by
  obtain ⟨v, hv, hu⟩ := Option.bind_eq_some_iff.mp hu
  rw [← hleft] at hv
  obtain ⟨hrem, hchan, hcursor, hmessage, hstamp, hchans, hlisteners, happ⟩ := ha.append hj hv
  have hagrees : s.shtp.Agrees v := .of_chan hchans happ
  obtain ⟨w, hw, rfl⟩ := Option.map_eq_some_iff.mp hu
  simp only [Sh2.deliver, hrem, hchans] at hw
  split_ifs at hw with hf
  · obtain ⟨g, hg⟩ : ∃ g, (q ++ [f]).head? = some g := by
      cases q
      exacts [⟨f, rfl⟩, ⟨_, rfl⟩]
    split at hw
    · rename_i hcb
      obtain rfl := Option.some.inj hw
      refine ⟨hlisteners, .inr ⟨hf, .nil (hrem.trans hf), ?_⟩⟩
      have hcall : callOf s.shtp (q ++ [f]) = none := by simp [callOf, hcb]
      rw [hcall]
      exact ⟨rfl, hagrees.trans (Shtp.agrees_setNextInSeq v _ _)⟩
    · rename_i cb hcb
      have hkeeps := Sh2.call_keeps hw
      refine ⟨hkeeps.chanListener.trans hlisteners,
        .inr ⟨hf, .nil ((hkeeps.inRemaining.trans hrem).trans hf), ?_⟩⟩
      have hcall : callOf s.shtp (q ++ [f]) = some ⟨cb, v.message, v.inTimestamp⟩ := by
        simp [callOf, hg, hcb, hmessage, hstamp g hg]
      rw [hcall]
      exact ⟨v, w, hw, rfl, by rw [hcursor, hmessage], rfl, rfl, hagrees,
        Shtp.agrees_setNextInSeq w.shtp _ _⟩
  · obtain rfl := Option.some.inj hw
    refine ⟨hlisteners, .inl ⟨hf, ⟨?_, ?_, ?_, ?_, ?_⟩,
      rfl, hagrees.trans (Shtp.agrees_setNextInSeq v _ _)⟩⟩
    · simp
    · rw [List.getLast?_concat]
      rintro g hg
      obtain rfl := Option.some.inj hg
      refine ⟨hf, hrem, hchan, ?_⟩
      rw [Shtp.setNextInSeq_chan, if_pos rfl, hseq]
    exacts [fun _ => hcursor, fun _ => hmessage, hstamp]

/-- **A transfer does to the pieces what `Fragment.push` does**, and the call that is made is that
with the message that it completes. -/
theorem rxAssemble_called (ha : Assembles s p) (hx : piece s.shtp.chanListener.length x = some f)
    (hu : s.rxAssemble x.1 x.2 = some u) :
    u.shtp.chanListener = s.shtp.chanListener ∧ Assembles u (push (· + 1) Starts p f).1 ∧
      ∃ c, (push (· + 1) Starts p f).2.filterMap (callOf s.shtp) = c.toList ∧ s.Called u c := by
  obtain ⟨h, hseq, hcont, hleft, hrx⟩ := rxAssemble_of_some hx
  rw [hrx] at hu
  have hd := ha.discard hseq hcont
  simp only [push]
  generalize hq : (if Joins (· + 1) p f then p else []) = q at hd
  have hzero : (s.shtp.discard h f.chan).inRemaining = 0 ↔ q = [] := by
    refine ⟨fun h0 => ?_, hd.idle⟩
    rcases List.eq_nil_or_concat' q with rfl | ⟨r, g, rfl⟩
    · rfl
    · obtain ⟨hne, hrem, -⟩ := hd.last g List.getLast?_concat
      exact absurd (hrem.symm.trans h0) hne
  have hjoin : q = [] ∨ Joins (· + 1) q f := by
    rw [← hq]
    split_ifs with hj
    exacts [.inr hj, .inl rfl]
  have hchan := discard_chan s.shtp h f.chan
  have hlistener := discard_chanListener s.shtp h f.chan
  have hagrees := agrees_discard s.shtp h f.chan
  simp only [hzero] at hu
  split_ifs at hu ⊢ with hstart hf
  · obtain rfl := Option.some.inj hu
    exact ⟨hlistener, hstart.1 ▸ hd, none, rfl, rfl, hagrees⟩
  · obtain ⟨hkeep, ⟨hne, -⟩ | ⟨-, hidle, hcalled⟩⟩ := hd.receive hjoin hseq hleft hu
    · exact absurd hf hne
    · have hcall : callOf (s.shtp.discard h f.chan) (q ++ [f]) = callOf s.shtp (q ++ [f]) := by
        simp only [callOf, hchan]
      rw [hcall] at hcalled
      refine ⟨hkeep.trans hlistener, hidle, callOf s.shtp (q ++ [f]), ?_, hcalled.of_agrees hagrees⟩
      rw [List.filterMap_cons, List.filterMap_nil]
      cases callOf s.shtp (q ++ [f]) <;> rfl
  · obtain ⟨hkeep, ⟨-, hnext, hcalled⟩ | ⟨hzero, -⟩⟩ := hd.receive hjoin hseq hleft hu
    · exact ⟨hkeep.trans hlistener, hnext, none, rfl, hcalled.of_agrees hagrees⟩
    · exact absurd hzero hf

/-- The calls are those with the message that a transfer completes. -/
theorem rxAssemble (ha : Assembles s p) (hx : piece s.shtp.chanListener.length x = some f)
    (hu : s.rxAssemble x.1 x.2 = some u) :
    u.shtp.chanListener = s.shtp.chanListener ∧ Assembles u (push (· + 1) Starts p f).1 ∧
      u.calls = s.calls ++ (push (· + 1) Starts p f).2.filterMap (callOf s.shtp) := by
  obtain ⟨hkeep, hpush, c, hc, hcalled⟩ := ha.rxAssemble_called hx hu
  exact ⟨hkeep, hpush, by rw [hc, hcalled.calls]⟩

theorem of_unheard (ha : Assembles s p) (hu : s.Unheard u) : Assembles u p := by
  have hshtp := hu.shtp_eq
  refine ⟨?_, fun f hf => ?_, ?_, ?_, ?_⟩
  · rw [hshtp]
    exact ha.idle
  · obtain ⟨n, hn⟩ := hu.chan f.chan
    rw [hn, hshtp]
    exact ha.last f hf
  · rw [hshtp]
    exact ha.cursor
  · rw [hshtp]
    exact ha.message
  · rw [hshtp]
    exact ha.stamp

end Assembles

/-- A transfer that does not complete a message for the command channel changes neither the transfer
size nor the tables, but for the number that a channel expects. -/
theorem chan_of_rxAssemble {s u : Sh2} {x : List UInt8 × UInt32} {f : Piece}
    (hx : piece s.shtp.chanListener.length x = some f)
    (hf : f.left = 0 → (s.shtp.chan f.chan).callback ≠ some .shtpCmdListener)
    (hu : s.rxAssemble x.1 x.2 = some u) :
    u.shtp.outMaxTransfer = s.shtp.outMaxTransfer ∧
      ∀ c, ∃ n, u.shtp.chan c = { s.shtp.chan c with nextInSeq := n } := by
  obtain ⟨h, -, -, hleft, hrx⟩ := rxAssemble_of_some hx
  rw [hrx] at hu
  have hchan := discard_chan s.shtp h f.chan
  have hsize : (s.shtp.discard h f.chan).outMaxTransfer = s.shtp.outMaxTransfer := by
    unfold Shtp.discard
    split_ifs <;> rfl
  split_ifs at hu
  · obtain rfl := Option.some.inj hu
    exact ⟨hsize, fun c => ⟨(s.shtp.chan c).nextInSeq, congrFun hchan c⟩⟩
  · obtain ⟨v, hv, hu⟩ := Option.bind_eq_some_iff.mp hu
    obtain ⟨w, hw, rfl⟩ := Option.map_eq_some_iff.mp hu
    have hv : v.chan = s.shtp.chan ∧ v.outMaxTransfer = s.shtp.outMaxTransfer ∧
        v.inRemaining = f.left := by
      obtain ⟨b, -, rfl⟩ := Option.map_eq_some_iff.mp hv
      rw [← hchan, ← hsize, hleft]
      unfold Shtp.startAssembly
      split_ifs <;> exact ⟨rfl, rfl, rfl⟩
    have hw : w.shtp.chan = s.shtp.chan ∧ w.shtp.outMaxTransfer = s.shtp.outMaxTransfer := by
      simp only [Sh2.deliver, hv.1] at hw
      split_ifs at hw with hdone
      · split at hw
        · obtain rfl := Option.some.inj hw
          exact ⟨hv.1, hv.2.1⟩
        · rename_i cb hcb
          have hne : cb ≠ .shtpCmdListener := fun he => hf (hv.2.2.symm.trans hdone) (he ▸ hcb)
          rw [Sh2.call_shtp hne hw]
          exact ⟨hv.1, hv.2.1⟩
      · obtain rfl := Option.some.inj hw
        exact ⟨hv.1, hv.2.1⟩
    refine ⟨hw.2, fun c => ?_⟩
    rw [Shtp.setNextInSeq_chan, hw.1]
    split_ifs with hc
    exacts [⟨_, by rw [hc]⟩, ⟨(s.shtp.chan c).nextInSeq, rfl⟩]

theorem callback_of_rxAssemble {s u : Sh2} {x : List UInt8 × UInt32} {f : Piece}
    (hx : piece s.shtp.chanListener.length x = some f)
    (hf : f.left = 0 → (s.shtp.chan f.chan).callback ≠ some .shtpCmdListener)
    (hu : s.rxAssemble x.1 x.2 = some u) (c : Fin 8) :
    (u.shtp.chan c).callback = (s.shtp.chan c).callback := by
  obtain ⟨n, hn⟩ := (chan_of_rxAssemble hx hf hu).2 c
  rw [hn]

/-! ### A run -/

/-- The valid transfers that a run reads. -/
def receivedPieces (as : List Client.Act) : List Piece :=
  (as.filterMap Client.Act.received).filterMap (piece listeners.length)

/-- The call is made with the message that the pieces make up, at the time of the first one. -/
structure Call.Carries (call : Call) (g : List Piece) : Prop where
  payload : call.payload = bytesOf g
  timestamp : ∀ f ∈ g.head?, call.timestamp = f.data.2

theorem carries_of_callOf {s : Shtp} {g : List Piece} {call : Call} (h : callOf s g = some call) :
    call.Carries g := by
  obtain ⟨last, -, h⟩ := Option.bind_eq_some_iff.mp h
  obtain ⟨first, hfirst, h⟩ := Option.bind_eq_some_iff.mp h
  obtain ⟨cb, -, rfl⟩ := Option.map_eq_some_iff.mp h
  exact ⟨rfl, fun f hf =>
    congrArg (fun f : Piece => f.data.2) (Option.some.inj (hfirst.symm.trans hf))⟩

/-- The calls for pieces are made with some of them, in order. -/
theorem exists_carries (s : Shtp) (gs : List (List Piece)) :
    ∃ hs, hs.Sublist gs ∧ List.Forall₂ Call.Carries (gs.filterMap (callOf s)) hs := by
  induction gs with
  | nil => exact ⟨[], .slnil, .nil⟩
  | cons g gs ih =>
    obtain ⟨hs, hsub, hcalls⟩ := ih
    rw [List.filterMap_cons]
    cases hg : callOf s g with
    | none => exact ⟨hs, hsub.cons g, hcalls⟩
    | some call => exact ⟨g :: hs, hsub.cons_cons g, .cons (carries_of_callOf hg) hcalls⟩

namespace Client

variable {k l : Client} {p : List Piece}

/-- A run does to the pieces what the receiver of `Fragment.assemble` does. -/
theorem assembles_of_run {as : List Act} (hok : k.sh2.Ok) (hp : Assembles k.sh2 p)
    (h : Machine.run step k as = some l) :
    Assembles l.sh2 (assemble (· + 1) Starts p (receivedPieces as)).1 ∧
      ∃ calls gs, l.sh2.calls = k.sh2.calls ++ calls ∧
        gs.Sublist (assemble (· + 1) Starts p (receivedPieces as)).2 ∧
        List.Forall₂ Call.Carries calls gs := by
  induction as generalizing k p with
  | nil =>
    obtain rfl := Option.some.inj h
    exact ⟨hp, [], [], (List.append_nil _).symm, .slnil, .nil⟩
  | cons a as ih =>
    obtain ⟨m, hm, h⟩ := Option.bind_eq_some_iff.mp h
    have hmok := ok_step hok hm
    have hstep := step_sh2 hm
    cases ha : a.received with
    | none =>
      rw [ha] at hstep
      have hrec : receivedPieces (a :: as) = receivedPieces as := by
        simp [receivedPieces, ha]
      rw [hrec, ← hstep.calls]
      exact ih hmok (hp.of_unheard hstep) h
    | some x =>
      rw [ha] at hstep
      obtain ⟨-, hrx⟩ := hstep
      cases hx : piece listeners.length x with
      | none =>
        rw [rxAssemble_of_none (hok.chanListener ▸ hx)] at hrx
        have hrec : receivedPieces (a :: as) = receivedPieces as := by
          simp [receivedPieces, ha, hx]
        rw [hrec, Option.some.inj hrx]
        exact ih hmok (Option.some.inj hrx ▸ hp) h
      | some f =>
        obtain ⟨-, hpush, hcalls⟩ := hp.rxAssemble (hok.chanListener ▸ hx) hrx
        obtain ⟨hlast, calls, gs, hcalls', hsub, hcarries⟩ := ih hmok hpush h
        obtain ⟨hs, hsub', hcarries'⟩ :=
          exists_carries k.sh2.shtp (push (· + 1) Starts p f).2
        have hrec : receivedPieces (a :: as) = f :: receivedPieces as := by
          simp [receivedPieces, ha, hx]
        rw [hrec, assemble]
        refine ⟨hlast, _, hs ++ gs, ?_, hsub'.append hsub, List.rel_append hcarries' hcarries⟩
        rw [hcalls', hcalls, List.append_assoc]

/-- A run in which no transfer but the last one completes a message for the command channel: up to
there the functions of the channels stay as they are, and the calls are those with the messages
that are completed. -/
theorem called_of_run {as : List Act} (hok : k.sh2.Ok) (hp : Assembles k.sh2 p)
    (hroute : ∀ f ∈ (receivedPieces as).dropLast, f.left = 0 →
      (k.sh2.shtp.chan f.chan).callback ≠ some .shtpCmdListener)
    (h : Machine.run step k as = some l) :
    k.sh2.CalledAll
      ((assemble (· + 1) Starts p (receivedPieces as)).2.filterMap (callOf k.sh2.shtp)) l.sh2 := by
  induction as generalizing k p with
  | nil =>
    obtain rfl := Option.some.inj h
    exact .refl _
  | cons a as ih =>
    obtain ⟨m, hm, h⟩ := Option.bind_eq_some_iff.mp h
    have hmok := ok_step hok hm
    have hstep := step_sh2 hm
    cases ha : a.received with
    | none =>
      rw [ha] at hstep
      have hrec : receivedPieces (a :: as) = receivedPieces as := by
        simp [receivedPieces, ha]
      rw [hrec] at hroute ⊢
      have hcallOf : callOf k.sh2.shtp = callOf m.sh2.shtp := by
        funext g
        simp only [callOf, hstep.callback]
      rw [hcallOf]
      exact .unheard hstep (ih hmok (hp.of_unheard hstep)
        (fun f hf => by rw [hstep.callback]; exact hroute f hf) h)
    | some x =>
      rw [ha] at hstep
      obtain ⟨-, hrx⟩ := hstep
      cases hx : piece listeners.length x with
      | none =>
        rw [rxAssemble_of_none (hok.chanListener ▸ hx)] at hrx
        have hrec : receivedPieces (a :: as) = receivedPieces as := by
          simp [receivedPieces, ha, hx]
        rw [hrec] at hroute ⊢
        rw [Option.some.inj hrx] at hp hroute ⊢
        exact ih hmok hp hroute h
      | some f =>
        have hrec : receivedPieces (a :: as) = f :: receivedPieces as := by
          simp [receivedPieces, ha, hx]
        rw [hrec] at hroute ⊢
        have hx := hok.chanListener ▸ hx
        obtain ⟨-, hpush, c, hc, hcalled⟩ := hp.rxAssemble_called hx hrx
        rw [assemble, List.filterMap_append, hc]
        refine .called hcalled ?_
        rcases List.eq_nil_or_concat' (receivedPieces as) with hlast | ⟨fs, g, hlast⟩
        · -- Behind the last transfer no function is called.
          have hih := ih hmok hpush (by rw [hlast]; simp) h
          rw [hlast] at hih ⊢
          exact hih
        · have hmem {f' : Piece} (hf' : f' ∈ fs) : f' ∈ (f :: receivedPieces as).dropLast := by
            rw [hlast, ← List.cons_append, List.dropLast_concat]
            exact List.mem_cons_of_mem f hf'
          have hcb := callback_of_rxAssemble hx
            (hroute f (by rw [hlast, ← List.cons_append, List.dropLast_concat]; simp)) hrx
          have hcallOf : callOf m.sh2.shtp = callOf k.sh2.shtp := by
            funext g
            simp only [callOf, hcb]
          rw [← hcallOf]
          refine ih hmok hpush (fun f' hf' => ?_) h
          rw [hcb]
          rw [hlast, List.dropLast_concat] at hf'
          exact hroute f' (hmem hf')

/-- **Every message handed over is the whole of one message**: the calls are made, in order, with
the contents of disjoint blocks of the valid transfers. A block is of one channel, its numbers
count up, all of its transfers but the first are continuations, and only its last one leaves
nothing of the message. Whatever transfers arrive, no bytes of two messages are mixed. -/
theorem calls_carry_messages {as : List Act} (h : Machine.run step start as = some k) :
    ∃ gs, List.Forall₂ Call.Carries k.sh2.calls gs ∧ (∀ g ∈ gs, Complete (· + 1) Starts g) ∧
      Blocks gs (receivedPieces as) := by
  obtain ⟨-, calls, gs, hcalls, hsub, hcarries⟩ := assembles_of_run .sh2Open (.nil rfl) h
  have hpart : Partial (· + 1) Starts [] := partial_nil
  obtain ⟨-, hcomplete, hblocks⟩ := assemble_blocks hpart (receivedPieces as)
  refine ⟨gs, ?_, fun g hg => hcomplete g (hsub.subset hg), ?_⟩
  · rw [hcalls]
    exact hcarries
  · exact hblocks.sublist (hsub.trans (List.sublist_append_left _ _))

/-- A message on the command channel in two transfers, and a transfer of another one in between. -/
theorem calls_carry_messages_two : ∃ k gs,
    Machine.run step start [.service [6, 0, 0, 0, 1] 0, .service [6, 0, 0, 9, 3] 0,
      .service [5, 0x80, 0, 1, 2] 0, .service [5, 0x80, 0, 10, 4] 0] = some k ∧
    List.Forall₂ Call.Carries k.sh2.calls gs ∧ ∀ g ∈ gs, Complete (· + 1) Starts g := by
  obtain ⟨k, hk⟩ := Option.isSome_iff_exists.mp (show (Machine.run step start
    [.service [6, 0, 0, 0, 1] 0, .service [6, 0, 0, 9, 3] 0, .service [5, 0x80, 0, 1, 2] 0,
      .service [5, 0x80, 0, 10, 4] 0]).isSome by decide +kernel)
  obtain ⟨gs, hcarries, hcomplete, -⟩ := calls_carry_messages hk
  exact ⟨k, gs, hk, hcarries, hcomplete⟩

end Client

end PicoUros.Imu
