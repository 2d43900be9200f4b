import PicoUros.Servo.Packet

/-!
# The replies on the servo bus

Behind a command `SCS` waits for the reply of the servo: it looks for the header among the next
bytes, and then reads as many bytes as it expects (`SCS.cpp`, lines 91–116 and 170–302). Each read
waits at most `IOTimeOut` milliseconds, and looks at the clock only when no byte is there
(`SCSerial.cpp`, lines 35–58).

What the loops find at the UART is an argument: a pass of a loop takes some time, and finds a byte
or none. A call that has not returned after these passes has the result `none`.

`ReadPos` and its siblings also take the id -1, for a value in the memory that `FeedBack` has
filled. This is left out.

## Main definitions

* `Poll`, `Line`: what the passes of the loops find, and the clock.
* `Scs`: the variables of the library, and what it has sent.
* `Scs.ack`, `Scs.ping`, `Scs.read`: the functions that take a reply.

## Main results

* `Scs.acked_iff`, `Scs.ping_iff`, `Scs.read_iff`: which bytes are taken for a reply.
* `Scs.ack_returns`, `Scs.read_returns`: how long a command holds up core 1.
* `Scs.readSigned_of_reply`: a number with a sign bit is read as its value.
* `Scs.readPos_of_reply`: a position that was sent is read back.
-/

namespace PicoUros.Servo

/-! ### The UART -/

/-- A pass of a loop: the time since the last one in microseconds, and the byte that is readable. -/
structure Poll where
  dt : ℕ
  readable : Option UInt8

/-- The clock, and what the passes to come will find. -/
structure Line where
  now : ℕ
  polls : List Poll

/-- `IOTimeOut`, in milliseconds. -/
def ioTimeOut : ℕ := 50

/-- The loop of `readSCS`, with `nLen` bytes to go. -/
def readLoop (t0 : ℕ) : ℕ → ℕ → List Poll → Option (List UInt8 × Line)
  | 0, now, ps => some ([], ⟨now, ps⟩)
  | _ + 1, _, [] => none
  | nLen + 1, now, p :: ps =>
    let now := now + p.dt
    match p.readable with
    | some b => (readLoop t0 nLen now ps).map fun r => (b :: r.1, r.2)
    | none =>
      if now - t0 > ioTimeOut * 1000 then some ([], ⟨now, ps⟩)
      else readLoop t0 (nLen + 1) now ps

namespace Line

/-- `readSCS`. -/
def readSCS (nLen : ℕ) (l : Line) : Option (List UInt8 × Line) := readLoop l.now nLen l.now l.polls

/-- `rFlushSCS`. -/
def rFlushSCS (l : Line) : Option Line := go l.now l.polls
where
  go : ℕ → List Poll → Option Line
  | _, [] => none
  | now, p :: ps =>
    match p.readable with
    | some _ => go (now + p.dt) ps
    | none => some ⟨now + p.dt, ps⟩

/-- The loop of `checkHead`, with `n` bytes to go until `Cnt > 10`, behind the byte `last`. -/
def headLoop : ℕ → UInt8 → Line → Option (Bool × Line)
  | 0, _, l => some (false, l)
  | n + 1, last, l =>
    match l.readSCS 1 with
    | none => none
    | some (bDat :: _, l) => if bDat = 0xff ∧ last = 0xff then some (true, l) else headLoop n bDat l
    | some ([], l) => some (false, l)

/-- `checkHead`. -/
def checkHead (l : Line) : Option (Bool × Line) := l.headLoop 11 0

end Line

/-! ### The library -/

/-- The variables of `SCS`, the UART, and the bytes sent so far. -/
structure Scs where
  level : UInt8 := 1
  scsEnd : Bool := false
  error : UInt8 := 0
  line : Line
  sent : List UInt8 := []

namespace Scs

/-- What `Ack` and `Ping` do in the same way: they take a reply without data from a servo whose id
passes the test. The result is this id. -/
def status (test : UInt8 → Bool) (s : Scs) : Option (Option UInt8 × Scs) :=
  match s.line.checkHead with
  | none => none
  | some (false, l) => some (none, { s with line := l })
  | some (true, l) =>
    match l.readSCS 4 with
    | none => none
    | some ([b0, b1, b2, b3], l) =>
      if !test b0 then some (none, { s with line := l })
      else if b1 ≠ 2 then some (none, { s with line := l })
      else if ~~~ (b0 + b1 + b2) ≠ b3 then some (none, { s with line := l })
      else some (some b0, { s with line := l, error := b2 })
    | some (_, l) => some (none, { s with line := l })

/-- `Ack`. -/
def ack (id : UInt8) (s : Scs) : Option (Bool × Scs) :=
  let s := { s with error := 0 }
  if id ≠ 0xfe ∧ s.level ≠ 0 then
    (s.status fun b0 => b0 = id).map fun r => (r.1.isSome, r.2)
  else some (true, s)

/-- `rFlushSCS`, and the bytes of a command. -/
def send (c : Command) (s : Scs) : Option Scs :=
  s.line.rFlushSCS.map fun l => { s with line := l, sent := s.sent ++ c.tx }

/-- A command that is acknowledged. -/
def acked (c : Command) (s : Scs) : Option (Bool × Scs) := (s.send c).bind fun s => s.ack c.id

/-- `genWrite`. -/
def genWrite (id memAddr : UInt8) (nDat : Block) (s : Scs) : Option (Bool × Scs) :=
  s.acked (.genWrite id memAddr nDat)

/-- `regWrite`. -/
def regWrite (id memAddr : UInt8) (nDat : Block) (s : Scs) : Option (Bool × Scs) :=
  s.acked (.regWrite id memAddr nDat)

/-- `RegWriteAction`. -/
def regWriteAction (id : UInt8) (s : Scs) : Option (Bool × Scs) := s.acked (.regWriteAction id)

/-- `Ping`, with `none` for `-1`. -/
def ping (id : UInt8) (s : Scs) : Option (Option UInt8 × Scs) :=
  (s.send (.ping id)).bind fun s => { s with error := 0 }.status fun b0 => b0 = id || id = 0xfe

/-- `Read` behind its command. The result is the data, or `none` for a return before the end. -/
def readReply (nLen : UInt8) (s : Scs) : Option (Option (List UInt8) × Scs) :=
  match s.line.checkHead with
  | none => none
  | some (false, l) => some (none, { s with line := l })
  | some (true, l) =>
    let s := { s with error := 0 }
    match l.readSCS 3 with
    | none => none
    | some ([b0, b1, b2], l) =>
      match l.readSCS nLen.toNat with
      | none => none
      | some (nData, l) =>
        if nData.length ≠ nLen.toNat then some (none, { s with line := l })
        else
          match l.readSCS 1 with
          | none => none
          | some ([b3], l) =>
            if ~~~ nData.foldl (· + ·) (b0 + b1 + b2) ≠ b3 then some (none, { s with line := l })
            else some (some nData, { s with line := l, error := b2 })
          | some (_, l) => some (none, { s with line := l })
    | some (_, l) => some (none, { s with line := l })

/-- `Read`. -/
def read (id memAddr nLen : UInt8) (s : Scs) : Option (Option (List UInt8) × Scs) :=
  (s.send (.read id memAddr nLen)).bind fun s => s.readReply nLen

/-- `readWord`, with `none` for `-1`. -/
def readWord (id memAddr : UInt8) (s : Scs) : Option (Option UInt16 × Scs) :=
  (s.read id memAddr 2).map fun r =>
    (match r.1 with
      | some [dataL, dataH] => some (scs2Host s.scsEnd dataL dataH)
      | _ => none, r.2)

/-- `ReadPos`, `ReadSpeed`, `ReadLoad` and `ReadCurrent` of a servo: the bit `bit` of a word is its
sign. The result is `none` when `Err` is set. -/
def readSigned (bit : ℕ) (id memAddr : UInt8) (s : Scs) : Option (Option ℤ × Scs) :=
  (s.readWord id memAddr).map fun r =>
    (r.1.map fun word =>
      if word.toNat.testBit bit then -((word.toNat - 2 ^ bit : ℕ) : ℤ) else word.toNat, r.2)

/-- `ReadPos`. -/
def readPos (id : UInt8) (s : Scs) : Option (Option ℤ × Scs) := s.readSigned 15 id 56

/-- `ReadSpeed`. -/
def readSpeed (id : UInt8) (s : Scs) : Option (Option ℤ × Scs) := s.readSigned 15 id 58

/-- `ReadLoad`. -/
def readLoad (id : UInt8) (s : Scs) : Option (Option ℤ × Scs) := s.readSigned 10 id 60

/-- `ReadCurrent`. -/
def readCurrent (id : UInt8) (s : Scs) : Option (Option ℤ × Scs) := s.readSigned 15 id 69

end Scs

/-! ### What a call takes from the UART -/

/-- The bytes `bs` are taken between `l` and `l'`. -/
def Line.Takes (l : Line) (bs : List UInt8) (l' : Line) : Prop :=
  ∃ used, l.polls = used ++ l'.polls ∧ used.filterMap Poll.readable = bs

namespace Line

variable {l l₁ l₂ : Line} {bs bs' : List UInt8}

theorem Takes.trans (h : l.Takes bs l₁) (h' : l₁.Takes bs' l₂) : l.Takes (bs ++ bs') l₂ := by
  obtain ⟨used, hpolls, rfl⟩ := h
  obtain ⟨used', hpolls', rfl⟩ := h'
  exact ⟨used ++ used', by rw [hpolls, hpolls', List.append_assoc], List.filterMap_append ..⟩

theorem Takes.unique (h : l.Takes bs l₁) (h' : l.Takes bs' l₁) : bs = bs' := by
  obtain ⟨used, hpolls, rfl⟩ := h
  obtain ⟨used', hpolls', rfl⟩ := h'
  rw [List.append_cancel_right (hpolls.symm.trans hpolls')]

theorem takes_readLoop {t0 now nLen : ℕ} {ps : List Poll}
    (h : readLoop t0 nLen now ps = some (bs, l)) :
    Takes ⟨now, ps⟩ bs l ∧ bs.length ≤ nLen := by
  induction ps generalizing now nLen bs with
  | nil =>
    cases nLen with
    | zero =>
      obtain ⟨rfl, rfl⟩ := Prod.mk.inj (Option.some.inj h)
      exact ⟨⟨[], rfl, rfl⟩, le_rfl⟩
    | succ nLen => cases h
  | cons p ps ih =>
    cases nLen with
    | zero =>
      obtain ⟨rfl, rfl⟩ := Prod.mk.inj (Option.some.inj h)
      exact ⟨⟨[], rfl, rfl⟩, le_rfl⟩
    | succ nLen =>
      rw [readLoop] at h
      cases hp : p.readable with
      | some b =>
        simp only [hp] at h
        obtain ⟨r, hr, hbs⟩ := Option.map_eq_some_iff.mp h
        obtain ⟨rfl, rfl⟩ := Prod.mk.inj hbs
        obtain ⟨⟨used, hpolls, hused⟩, hlen⟩ := ih hr
        exact ⟨⟨p :: used, congrArg (p :: ·) hpolls, by rw [List.filterMap_cons_some hp, hused]⟩,
          Nat.succ_le_succ hlen⟩
      | none =>
        simp only [hp] at h
        split_ifs at h with hover
        · obtain ⟨rfl, rfl⟩ := Prod.mk.inj (Option.some.inj h)
          exact ⟨⟨[p], rfl, List.filterMap_cons_none hp⟩, Nat.zero_le _⟩
        · obtain ⟨⟨used, hpolls, hused⟩, hlen⟩ := ih h
          exact ⟨⟨p :: used, congrArg (p :: ·) hpolls, by rw [List.filterMap_cons_none hp, hused]⟩,
            hlen⟩

theorem takes_readSCS {nLen : ℕ} (h : l.readSCS nLen = some (bs, l₁)) :
    l.Takes bs l₁ ∧ bs.length ≤ nLen :=
  takes_readLoop h

/-- The two bytes that a frame begins with. -/
def header : List UInt8 := [0xff, 0xff]

/-- A byte in front of the list `b :: bs` begins a header if it and `b` are the header. -/
theorem header_infix_cons {last b : UInt8} {bs : List UInt8} (h : header <:+: last :: b :: bs)
    (hnot : ¬ (b = 0xff ∧ last = 0xff)) : header <:+: b :: bs := by
  rcases List.infix_cons_iff.mp h with hfst | hrest
  · obtain ⟨hlast, hfst⟩ := List.cons_prefix_cons.mp hfst
    exact absurd ⟨(List.cons_prefix_cons.mp hfst).1.symm, hlast.symm⟩ hnot
  · exact hrest

/-- The loop takes bytes up to the first header behind `last`, or up to its end. -/
theorem takes_headLoop {n : ℕ} {last : UInt8} {ok : Bool} (h : l.headLoop n last = some (ok, l₁)) :
    ∃ bs, l.Takes bs l₁ ∧ bs.length ≤ n ∧
      ((ok = true ∧ ∃ junk, FirstAt header junk ∧ last :: bs = junk ++ header) ∨
        (ok = false ∧ ¬ header <:+: last :: bs)) := by
  have hshort {bs : List UInt8} (hlen : bs.length ≤ 1) : ¬ header <:+: bs := by
    intro hinf
    have := hinf.length_le
    rw [header, List.length_cons, List.length_singleton] at this
    omega
  induction n generalizing l last with
  | zero =>
    obtain ⟨rfl, rfl⟩ := Prod.mk.inj (Option.some.inj h)
    exact ⟨[], ⟨[], rfl, rfl⟩, Nat.zero_le _, .inr ⟨rfl, hshort (by simp)⟩⟩
  | succ n ih =>
    rw [headLoop] at h
    split at h
    · cases h
    · next b rest l₂ hread =>
      obtain ⟨htakes, hlen⟩ := takes_readSCS hread
      obtain rfl : rest = [] := by
        rw [List.length_cons] at hlen
        exact List.eq_nil_of_length_eq_zero (by omega)
      split_ifs at h with hff
      · obtain ⟨rfl, rfl⟩ := Prod.mk.inj (Option.some.inj h)
        obtain ⟨rfl, rfl⟩ := hff
        exact ⟨[0xff], htakes, by simp, .inl ⟨rfl, [], hshort (by simp [header]), rfl⟩⟩
      · obtain ⟨bs, htakes', hlen', hres⟩ := ih h
        refine ⟨b :: bs, htakes.trans htakes', Nat.succ_le_succ hlen', ?_⟩
        rcases hres with ⟨rfl, junk, hfirst, hbs⟩ | ⟨rfl, hnone⟩
        · refine .inl ⟨rfl, last :: junk, fun hinf => hfirst ?_, by rw [hbs]; rfl⟩
          have hhead : ∃ tail, junk ++ header.dropLast = b :: tail := by
            cases junk with
            | nil => exact ⟨[], by rw [(List.cons.inj hbs).1]; rfl⟩
            | cons c junk => exact ⟨_, by rw [(List.cons.inj hbs).1]; rfl⟩
          obtain ⟨tail, htail⟩ := hhead
          rw [htail]
          rw [List.cons_append, htail] at hinf
          exact header_infix_cons hinf hff
        · exact .inr ⟨rfl, fun hinf => hnone (header_infix_cons hinf hff)⟩
    · next l₂ hread =>
      obtain ⟨rfl, rfl⟩ := Prod.mk.inj (Option.some.inj h)
      exact ⟨[], (takes_readSCS hread).1, Nat.zero_le _, .inr ⟨rfl, hshort (by simp)⟩⟩

/-- **`checkHead` takes bytes up to the first header**, if it is among the first eleven bytes. -/
theorem takes_checkHead {ok : Bool} (h : l.checkHead = some (ok, l₁)) :
    ∃ bs, l.Takes bs l₁ ∧
      ((ok = true ∧ ∃ junk, junk.length ≤ 9 ∧ FirstAt header junk ∧ bs = junk ++ header) ∨
        (ok = false ∧ ¬ header <:+: bs)) := by
  obtain ⟨bs, htakes, hlen, hres⟩ := takes_headLoop h
  refine ⟨bs, htakes, ?_⟩
  rcases hres with ⟨hok, junk, hfirst, hbs⟩ | ⟨hok, hnone⟩
  · cases junk with
    | nil => exact absurd (List.cons.inj hbs).1 (by decide)
    | cons c junk =>
      obtain rfl : bs = junk ++ header := (List.cons.inj hbs).2
      refine .inl ⟨hok, junk, ?_, fun hinf => hfirst (hinf.trans ?_), rfl⟩
      · rw [List.length_append, header, List.length_cons, List.length_singleton] at hlen
        omega
      · exact (List.suffix_cons c _).isInfix
  · exact .inr ⟨hok, fun hinf => hnone (hinf.trans (List.suffix_cons 0 bs).isInfix)⟩

end Line

/-! ### Replies -/

/-- Behind at most nine other bytes, the bytes begin with a frame. -/
def IsReply (bs : List UInt8) (id len error : UInt8) (data : List UInt8) : Prop :=
  ∃ junk, junk.length ≤ 9 ∧ FirstAt Line.header junk ∧ bs = junk ++ frame id len error data

namespace Scs

variable {s t : Scs}

/-- No header has been found in what is a reply. -/
theorem not_isReply {bs : List UInt8} (h : ¬ Line.header <:+: bs) {id len error : UInt8}
    {data : List UInt8} : ¬ IsReply bs id len error data := by
  rintro ⟨junk, -, -, rfl⟩
  refine h ⟨junk, (id :: len :: error :: data) ++ [checksum (id :: len :: error :: data)], ?_⟩
  rw [frame, List.append_assoc, List.append_assoc]
  rfl

/-- What is behind the first header of a reply. -/
theorem isReply_iff {junk rest : List UInt8} (hlen : junk.length ≤ 9)
    (hfirst : FirstAt Line.header junk) {id len error : UInt8} {data : List UInt8} :
    IsReply (junk ++ Line.header ++ rest) id len error data ↔
      rest = (id :: len :: error :: data) ++ [checksum (id :: len :: error :: data)] := by
  constructor
  · rintro ⟨junk', -, hfirst', heq⟩
    rw [List.append_assoc, frame, List.append_assoc] at heq
    exact (hfirst.unique (List.cons_ne_nil _ _) hfirst' heq).2
  · rintro rfl
    exact ⟨junk, hlen, hfirst, by rw [frame, List.append_assoc, List.append_assoc]; rfl⟩

/-- **A status is taken exactly if the bytes are a reply** without data, and its id passes the
test. -/
theorem status_iff {test : UInt8 → Bool} {r : Option UInt8} (h : s.status test = some (r, t)) :
    ∃ bs, s.line.Takes bs t.line ∧ ∀ id,
      r = some id ↔ test id = true ∧ ∃ error, IsReply bs id 2 error [] := by
  rw [status] at h
  split at h
  · cases h
  · next l hhead =>
    obtain ⟨rfl, rfl⟩ := Prod.mk.inj (Option.some.inj h)
    obtain ⟨bs, htakes, ⟨hok, -⟩ | ⟨-, hnone⟩⟩ := Line.takes_checkHead hhead
    · cases hok
    · refine ⟨bs, htakes, fun id => iff_of_false (by simp) ?_⟩
      rintro ⟨-, error, hreply⟩
      exact not_isReply hnone hreply
  · next l hhead =>
    obtain ⟨bs, htakes, ⟨-, junk, hlen, hfirst, rfl⟩ | ⟨hok, -⟩⟩ := Line.takes_checkHead hhead
    · split at h
      · cases h
      · next b0 b1 b2 b3 l₁ hread =>
        obtain ⟨hr, ht⟩ : r = (if test b0 = true ∧ b1 = 2 ∧ ~~~ (b0 + b1 + b2) = b3 then some b0
            else none) ∧ t.line = l₁ := by
          split_ifs at h <;> obtain ⟨rfl, rfl⟩ := Prod.mk.inj (Option.some.inj h) <;> simp_all
        have hsum : ~~~ (b0 + b1 + b2) = checksum [b0, b1, b2] := by
          simp only [checksum, List.sum_cons, List.sum_nil, UInt8.add_zero, UInt8.add_assoc]
        refine ⟨_, ht ▸ htakes.trans (Line.takes_readSCS hread).1, fun id => ?_⟩
        simp only [isReply_iff hlen hfirst, hr, hsum, ite_eq_iff, reduceCtorEq, and_false, or_false,
          Option.some.injEq, List.cons_append, List.nil_append, List.cons.injEq, and_true]
        constructor
        · rintro ⟨⟨htest, rfl, hb3⟩, rfl⟩
          exact ⟨htest, b2, rfl, rfl, rfl, hb3.symm⟩
        · rintro ⟨htest, error, rfl, rfl, rfl, hb3⟩
          exact ⟨⟨htest, rfl, hb3.symm⟩, rfl⟩
      · next bBuf l₁ hnot hread =>
        obtain ⟨rfl, rfl⟩ := Prod.mk.inj (Option.some.inj h)
        refine ⟨_, htakes.trans (Line.takes_readSCS hread).1, fun id => iff_of_false (by simp) ?_⟩
        rintro ⟨-, error, hreply⟩
        rw [isReply_iff hlen hfirst] at hreply
        exact hnot _ _ _ _ hreply
    · cases hok

theorem status_sent {test : UInt8 → Bool} {r : Option UInt8} (h : s.status test = some (r, t)) :
    t.sent = s.sent := by
  rw [status] at h
  split at h
  · cases h
  · obtain ⟨-, rfl⟩ := Prod.mk.inj (Option.some.inj h)
    rfl
  · split at h
    · cases h
    · split_ifs at h <;> obtain ⟨-, rfl⟩ := Prod.mk.inj (Option.some.inj h) <;> rfl
    · obtain ⟨-, rfl⟩ := Prod.mk.inj (Option.some.inj h)
      rfl

/-- The library at the start, when the UART is found empty once and then has the bytes `bs`. -/
def hearing (bs : List UInt8) : Scs where
  line := ⟨0, ⟨1, none⟩ :: bs.map fun b => ⟨1, some b⟩⟩

/-- What a call has sent, and the bytes that it has taken behind those it has flushed. -/
structure Exchange (c : Command) (s : Scs) (bs : List UInt8) (t : Scs) : Prop where
  sent : t.sent = s.sent ++ c.tx
  taken : ∃ l, s.line.rFlushSCS = some l ∧ l.Takes bs t.line

theorem Exchange.unique {c : Command} {bs bs' : List UInt8} (h : Exchange c s bs t)
    (h' : Exchange c s bs' t) : bs = bs' := by
  obtain ⟨l, hflush, htakes⟩ := h.taken
  obtain ⟨l', hflush', htakes'⟩ := h'.taken
  obtain rfl := Option.some.inj (hflush.symm.trans hflush')
  exact htakes.unique htakes'

/-- All that is heard is taken. -/
theorem exchange_hearing {c : Command} {bs : List UInt8} (hsent : t.sent = c.tx)
    (hpolls : t.line.polls = []) : Exchange c (hearing bs) bs t := by
  refine ⟨hsent, ⟨1, bs.map fun b => ⟨1, some b⟩⟩, rfl, bs.map fun b => ⟨1, some b⟩, ?_, ?_⟩
  · rw [hpolls, List.append_nil]
  · rw [List.filterMap_map]
    exact List.filterMap_some

/-- **A command is acknowledged exactly if the bytes are a reply** without data of the servo that it
addresses, unless no reply is expected. -/
theorem acked_iff {c : Command} {ok : Bool} (h : s.acked c = some (ok, t)) :
    ∃ bs, Exchange c s bs t ∧
      (ok = true ↔ c.id = 0xfe ∨ s.level = 0 ∨ ∃ error, IsReply bs c.id 2 error []) := by
  obtain ⟨u, hu, hack⟩ := Option.bind_eq_some_iff.mp h
  obtain ⟨l, hl, rfl⟩ := Option.map_eq_some_iff.mp hu
  rw [ack] at hack
  split_ifs at hack with hreply
  · obtain ⟨⟨r, v⟩, hstatus, hr⟩ := Option.map_eq_some_iff.mp hack
    obtain ⟨rfl, rfl⟩ := Prod.mk.inj hr
    obtain ⟨bs, htakes, hiff⟩ := status_iff hstatus
    refine ⟨bs, ⟨status_sent hstatus, l, hl, htakes⟩, ?_⟩
    rw [Option.isSome_iff_exists]
    simp only [hiff, decide_eq_true_eq, exists_eq_left]
    simp [hreply.1, hreply.2]
  · obtain ⟨rfl, rfl⟩ := Prod.mk.inj (Option.some.inj hack)
    refine ⟨[], ⟨rfl, l, hl, [], rfl, rfl⟩, iff_of_true rfl ?_⟩
    rw [not_and_or, not_not, not_not] at hreply
    exact hreply.imp_right .inl

/-- A stray byte and the reply of servo 1 behind an asynchronous command. -/
theorem acked_iff_stray : ∃ t, ∃ bs,
    Exchange (.regWriteAction 1) (hearing [7, 255, 255, 1, 2, 0, 252]) bs t ∧
    (true = true ↔ (Command.regWriteAction 1).id = 0xfe ∨ (1 : UInt8) = 0 ∨
      ∃ error, IsReply bs (Command.regWriteAction 1).id 2 error []) := by
  obtain ⟨⟨ok, t⟩, hacked, hok⟩ := (Option.any_eq_true (fun r : Bool × Scs => r.1)
    ((hearing [7, 255, 255, 1, 2, 0, 252]).acked (.regWriteAction 1))).mp (by decide +kernel)
  obtain rfl : ok = true := hok
  exact ⟨t, acked_iff hacked⟩

/-- **A servo is there exactly if the bytes are a reply** without data, of the servo that is
addressed or of any one. -/
theorem ping_iff {id : UInt8} {r : Option UInt8} (h : s.ping id = some (r, t)) :
    ∃ bs, Exchange (.ping id) s bs t ∧
      ∀ id', r = some id' ↔ (id' = id ∨ id = 0xfe) ∧ ∃ error, IsReply bs id' 2 error [] := by
  obtain ⟨u, hu, hstatus⟩ := Option.bind_eq_some_iff.mp h
  obtain ⟨l, hl, rfl⟩ := Option.map_eq_some_iff.mp hu
  obtain ⟨bs, htakes, hiff⟩ := status_iff hstatus
  refine ⟨bs, ⟨status_sent hstatus, l, hl, htakes⟩, fun id' => ?_⟩
  rw [hiff]
  simp

/-- A reply with data, of any servo and with any length byte, in the parts that are read. -/
theorem isReply_data_iff {junk nData rest data : List UInt8} {b0 b1 b2 : UInt8} {n : ℕ}
    (hlen : junk.length ≤ 9) (hfirst : FirstAt Line.header junk) (hn : nData.length = n) :
    (data.length = n ∧ ∃ id len error,
        IsReply (junk ++ Line.header ++ [b0, b1, b2] ++ nData ++ rest) id len error data) ↔
      nData = data ∧ rest = [checksum (b0 :: b1 :: b2 :: nData)] := by
  rw [List.append_assoc, List.append_assoc]
  simp only [isReply_iff hlen hfirst, List.cons_append, List.nil_append, List.cons.injEq]
  constructor
  · rintro ⟨hdata, id, len, error, rfl, rfl, rfl, heq⟩
    obtain ⟨rfl, hrest⟩ := List.append_inj heq (hn.trans hdata.symm)
    exact ⟨rfl, hrest⟩
  · rintro ⟨rfl, hrest⟩
    exact ⟨hn, b0, b1, b2, rfl, rfl, rfl, by rw [hrest]⟩

/-- The data of a reply of any servo, and with any length byte, is taken. -/
theorem readReply_iff {nLen : UInt8} {r : Option (List UInt8)}
    (h : s.readReply nLen = some (r, t)) :
    t.sent = s.sent ∧ t.scsEnd = s.scsEnd ∧ ∃ bs, s.line.Takes bs t.line ∧ ∀ data,
      r = some data ↔ data.length = nLen.toNat ∧ ∃ id len error, IsReply bs id len error data := by
  rw [readReply] at h
  split at h
  · cases h
  · next l hhead =>
    obtain ⟨rfl, rfl⟩ := Prod.mk.inj (Option.some.inj h)
    obtain ⟨bs, htakes, ⟨hok, -⟩ | ⟨-, hnone⟩⟩ := Line.takes_checkHead hhead
    · cases hok
    · refine ⟨rfl, rfl, bs, htakes, fun data => iff_of_false (by simp) ?_⟩
      rintro ⟨-, id, len, error, hreply⟩
      exact not_isReply hnone hreply
  · next l hhead =>
    obtain ⟨bs, htakes, ⟨-, junk, hlen, hfirst, rfl⟩ | ⟨hok, -⟩⟩ := Line.takes_checkHead hhead
    · dsimp only at h
      split at h
      · cases h
      · next b0 b1 b2 l₁ hread =>
        have htakes₁ := htakes.trans (Line.takes_readSCS hread).1
        split at h
        · cases h
        · next nData l₂ hread₂ =>
          obtain ⟨htake₂, hle⟩ := Line.takes_readSCS hread₂
          have htakes₂ := htakes₁.trans htake₂
          split_ifs at h with hshort
          · obtain ⟨rfl, rfl⟩ := Prod.mk.inj (Option.some.inj h)
            refine ⟨rfl, rfl, _, htakes₂, fun data => iff_of_false (by simp) ?_⟩
            rintro ⟨hdata, id, len, error, hreply⟩
            rw [List.append_assoc, isReply_iff hlen hfirst] at hreply
            have := congrArg List.length hreply
            simp at this
            omega
          · rw [not_not] at hshort
            split at h
            · cases h
            · next b3 l₃ hread₃ =>
              have htakes₃ := htakes₂.trans (Line.takes_readSCS hread₃).1
              have hsum : ~~~ nData.foldl (· + ·) (b0 + b1 + b2) =
                  checksum (b0 :: b1 :: b2 :: nData) := by
                rw [Command.not_foldl_add, checksum_inj]
                simp only [List.sum_cons, UInt8.add_assoc]
              obtain ⟨hr, ht, hsent, hend⟩ : r = (if checksum (b0 :: b1 :: b2 :: nData) = b3
                  then some nData else none) ∧ t.line = l₃ ∧ t.sent = s.sent ∧
                    t.scsEnd = s.scsEnd := by
                rw [hsum] at h
                split_ifs at h with hck <;> obtain ⟨rfl, rfl⟩ := Prod.mk.inj (Option.some.inj h)
                · exact ⟨(if_neg hck).symm, rfl, rfl, rfl⟩
                · exact ⟨(if_pos (not_not.mp hck)).symm, rfl, rfl, rfl⟩
              refine ⟨hsent, hend, _, ht ▸ htakes₃, fun data => ?_⟩
              rw [isReply_data_iff hlen hfirst hshort, hr]
              simp only [ite_eq_iff, reduceCtorEq, and_false, or_false, Option.some.injEq,
                List.cons.injEq, and_true]
              exact and_comm.trans (and_congr_right fun _ => eq_comm)
            · next bBuf l₃ hnot hread₃ =>
              obtain ⟨rfl, rfl⟩ := Prod.mk.inj (Option.some.inj h)
              refine ⟨rfl, rfl, _, htakes₂.trans (Line.takes_readSCS hread₃).1,
                fun data => iff_of_false (by simp) fun hreply => ?_⟩
              exact hnot _ ((isReply_data_iff hlen hfirst hshort).mp hreply).2
      · next bBuf l₁ hnot hread =>
        obtain ⟨htake₁, hle⟩ := Line.takes_readSCS hread
        obtain ⟨rfl, rfl⟩ := Prod.mk.inj (Option.some.inj h)
        refine ⟨rfl, rfl, _, htakes.trans htake₁, fun data => iff_of_false (by simp) ?_⟩
        rintro ⟨-, id, len, error, hreply⟩
        rw [isReply_iff hlen hfirst] at hreply
        have := congrArg List.length hreply
        simp at this
        omega
    · cases hok

/-- **Data is read exactly if the bytes are a reply** with as many bytes of data, of whatever servo
and with whatever length byte. -/
theorem read_iff {id memAddr nLen : UInt8} {r : Option (List UInt8)}
    (h : s.read id memAddr nLen = some (r, t)) :
    ∃ bs, Exchange (.read id memAddr nLen) s bs t ∧ ∀ data,
      r = some data ↔
        data.length = nLen.toNat ∧ ∃ id' len error, IsReply bs id' len error data := by
  obtain ⟨u, hu, hread⟩ := Option.bind_eq_some_iff.mp h
  obtain ⟨l, hl, rfl⟩ := Option.map_eq_some_iff.mp hu
  obtain ⟨hsent, -, bs, htakes, hiff⟩ := readReply_iff hread
  exact ⟨bs, ⟨hsent, l, hl, htakes⟩, hiff⟩

/-- The position 2048, read from servo 1 in a reply that has the id of servo 2. -/
theorem read_iff_otherServo : ∃ t, ∃ bs, Exchange (.read 1 56 2)
    (hearing [255, 255, 2, 4, 0, 0, 8, 241]) bs t ∧ ∀ data, some [0, 8] = some data ↔
      data.length = (2 : UInt8).toNat ∧ ∃ id' len error, IsReply bs id' len error data := by
  obtain ⟨⟨r, t⟩, hread, hr⟩ := (Option.any_eq_true
    (fun r : Option (List UInt8) × Scs => r.1 = some [0, 8])
    ((hearing [255, 255, 2, 4, 0, 0, 8, 241]).read 1 56 2)).mp (by decide +kernel)
  obtain rfl : r = some [0, 8] := of_decide_eq_true hr
  exact ⟨t, read_iff hread⟩

/-- **A reply with a changed byte is not read.** -/
theorem read_of_changed {id memAddr nLen : UInt8} {r : Option (List UInt8)}
    {junk x y data : List UInt8} {a b id' len error : UInt8}
    (h : s.read id memAddr nLen = some (r, t)) (hfirst : FirstAt Line.header junk)
    (hreply : IsReply (junk ++ Line.header ++ (x ++ a :: y)) id' len error data) (hab : a ≠ b)
    (hex : Exchange (.read id memAddr nLen) s (junk ++ Line.header ++ (x ++ b :: y)) t) :
    r = none := by
  obtain ⟨bs, hex', hiff⟩ := read_iff h
  obtain rfl := hex.unique hex'
  have hlen : junk.length ≤ 9 := by
    obtain ⟨junk', hlen, hfirst', heq⟩ := hreply
    rw [List.append_assoc, frame, List.append_assoc] at heq
    rwa [(hfirst.unique (List.cons_ne_nil _ _) hfirst' heq).1]
  rw [isReply_iff hlen hfirst] at hreply
  cases r with
  | none => rfl
  | some data' =>
    obtain ⟨-, id'', len', error', hreply'⟩ := (hiff data').mp rfl
    rw [isReply_iff hlen hfirst] at hreply'
    exact absurd (eq_of_checksums hreply.symm hreply'.symm) hab

/-- The same reply, with another byte in place of the first byte of the data. -/
theorem read_of_changed_nine : ∃ r t,
    (hearing [255, 255, 1, 4, 0, 9, 8, 242]).read 1 56 2 = some (r, t) ∧
    Exchange (.read 1 56 2) (hearing [255, 255, 1, 4, 0, 9, 8, 242])
      ([] ++ Line.header ++ ([1, 4, 0] ++ 9 :: [8, 242])) t ∧ r = none := by
  have hfirst : FirstAt Line.header [] := by decide
  have hreply : IsReply ([] ++ Line.header ++ ([1, 4, 0] ++ 0 :: [8, 242])) 1 4 0 [0, 8] :=
    (isReply_iff (Nat.zero_le _) hfirst).mpr (by decide)
  have hex : Exchange (.read 1 56 2) (hearing [255, 255, 1, 4, 0, 9, 8, 242])
      ([] ++ Line.header ++ ([1, 4, 0] ++ 9 :: [8, 242]))
      { line := ⟨9, []⟩, sent := [255, 255, 1, 4, 2, 56, 2, 190] } :=
    exchange_hearing (by decide +kernel) rfl
  exact ⟨none, _, rfl, hex, read_of_changed rfl hfirst hreply (by decide) hex⟩

end Scs

/-! ### Positions -/

/-- The word of a position is read back, but for the least one, whose magnitude has no room. -/
theorem decode_signMagnitude (p : Int16) :
    (if (signMagnitude p).toNat.testBit 15 then
      -(((signMagnitude p).toNat - 2 ^ 15 : ℕ) : ℤ) else (signMagnitude p).toNat) =
        if p = Int16.minValue then 0 else p.toInt := by
  have hlt := p.toUInt16.toNat_lt
  have hint : p.toInt = if 2 * p.toUInt16.toNat < 2 ^ 16 then (p.toUInt16.toNat : ℤ)
      else p.toUInt16.toNat - (2 ^ 16 : ℕ) := BitVec.toInt_eq_toNat_cond _
  have hneg : p < 0 ↔ 2 ^ 15 ≤ p.toUInt16.toNat := by
    rw [Int16.lt_iff_toInt_lt, hint, Int16.toInt_zero]
    split_ifs <;> omega
  have hmin : p = Int16.minValue ↔ p.toUInt16.toNat = 2 ^ 15 := by
    constructor
    · rintro rfl
      rfl
    · intro hnat
      have hword : p.toUInt16 = Int16.minValue.toUInt16 := UInt16.toNat_inj.mp hnat
      rw [← Int16.toInt16_toUInt16 p, hword, Int16.toInt16_toUInt16]
  by_cases hp : p < 0
  · have hge := hneg.mp hp
    have hmag : (signMagnitude p).toNat = 2 ^ 15 ||| (2 ^ 16 - p.toUInt16.toNat) := by
      rw [signMagnitude, if_pos hp, UInt16.toNat_or, Int16.toUInt16_neg, UInt16.toNat_neg,
        Nat.mod_eq_of_lt (Nat.sub_lt (by decide) (by omega)), Nat.or_comm]
      rfl
    by_cases hleast : p = Int16.minValue
    · rw [if_pos hleast, hmag, hmin.mp hleast]
      decide
    · have hm : 2 ^ 16 - p.toUInt16.toNat < 2 ^ 15 := by
        rw [hmin] at hleast
        omega
      have hor := Nat.two_pow_add_eq_or_of_lt hm 1
      rw [Nat.mul_one] at hor
      rw [if_neg hleast, hmag, ← hor, Nat.testBit_two_pow_add_eq,
        Nat.testBit_lt_two_pow hm, Bool.not_false, if_pos rfl, hint, if_neg (by omega)]
      omega
  · have hlow : p.toUInt16.toNat < 2 ^ 15 := by
      rw [hneg] at hp
      omega
    have hleast : p ≠ Int16.minValue := by
      rw [Ne, hmin]
      omega
    rw [signMagnitude, if_neg hp, Nat.testBit_lt_two_pow hlow, if_neg Bool.false_ne_true,
      if_neg hleast, hint, if_pos (by omega)]

namespace Scs

variable {s t : Scs}

/-- The word in a reply is decoded. -/
theorem readSigned_of_word {bit : ℕ} {id memAddr id' len error : UInt8} {r : Option ℤ}
    {bs : List UInt8} {word : UInt16} (h : s.readSigned bit id memAddr = some (r, t))
    (hex : Exchange (.read id memAddr 2) s bs t)
    (hreply : IsReply bs id' len error (host2Scs s.scsEnd word)) :
    r = some (if word.toNat.testBit bit then -((word.toNat - 2 ^ bit : ℕ) : ℤ)
      else word.toNat) := by
  obtain ⟨⟨word', u⟩, hword, hr⟩ := Option.map_eq_some_iff.mp h
  obtain ⟨rfl, rfl⟩ := Prod.mk.inj hr
  obtain ⟨⟨data, v⟩, hread, hdata⟩ := Option.map_eq_some_iff.mp hword
  obtain ⟨rfl, rfl⟩ := Prod.mk.inj hdata
  obtain ⟨bs', hex', hiff⟩ := read_iff hread
  obtain rfl := hex.unique hex'
  obtain ⟨dataL, dataH, hbytes⟩ : ∃ dataL dataH, host2Scs s.scsEnd word = [dataL, dataH] := by
    cases s.scsEnd <;> exact ⟨_, _, rfl⟩
  rw [hbytes] at hreply
  obtain rfl := (hiff _).mpr ⟨rfl, id', len, error, hreply⟩
  rw [Option.map_some, scs2Host_host2Scs hbytes]

/-- **A speed, a load or a current is read as its value**, if the servo replies with its magnitude
and its sign in the bit above. -/
theorem readSigned_of_reply {bit m : ℕ} {neg : Bool} {id memAddr id' len error : UInt8}
    {r : Option ℤ} {bs : List UInt8} (hbit : bit < 16) (hm : m < 2 ^ bit)
    (h : s.readSigned bit id memAddr = some (r, t)) (hex : Exchange (.read id memAddr 2) s bs t)
    (hreply : IsReply bs id' len error
      (host2Scs s.scsEnd (.ofNat (if neg then 2 ^ bit + m else m)))) :
    r = some (if neg then -(m : ℤ) else m) := by
  have hpow : 2 ^ (bit + 1) ≤ 2 ^ 16 := Nat.pow_le_pow_right (by decide) hbit
  rw [Nat.pow_succ] at hpow
  rw [readSigned_of_word h hex hreply]
  cases neg with
  | false =>
    simp only [Bool.false_eq_true, if_false]
    rw [UInt16.toNat_ofNat_of_lt' (show m < 2 ^ 16 by omega), Nat.testBit_lt_two_pow hm,
      if_neg Bool.false_ne_true]
  | true =>
    simp only [if_true]
    rw [UInt16.toNat_ofNat_of_lt' (show 2 ^ bit + m < 2 ^ 16 by omega),
      Nat.testBit_two_pow_add_eq, Nat.testBit_lt_two_pow hm, Bool.not_false, if_pos rfl,
      Nat.add_sub_cancel_left]

/-- **A position that was sent is read back**, if the servo replies with its bytes. -/
theorem readPos_of_reply {id id' len error : UInt8} {r : Option ℤ} {bs : List UInt8} {p : Int16}
    (h : s.readPos id = some (r, t)) (hex : Exchange (.read id 56 2) s bs t)
    (hreply : IsReply bs id' len error (host2Scs s.scsEnd (signMagnitude p))) :
    r = some (if p = Int16.minValue then 0 else p.toInt) := by
  rw [readSigned_of_word h hex hreply, decode_signMagnitude]

/-- The position -5. -/
theorem readPos_of_reply_neg : ∃ r t,
    (hearing [255, 255, 1, 4, 0, 5, 128, 117]).readPos 1 = some (r, t) ∧
      r = some (if (-5 : Int16) = Int16.minValue then 0 else (-5 : Int16).toInt) := by
  have hex : Exchange (.read 1 56 2) (hearing [255, 255, 1, 4, 0, 5, 128, 117])
      ([] ++ Line.header ++ [1, 4, 0, 5, 128, 117])
      { line := ⟨9, []⟩, sent := [255, 255, 1, 4, 2, 56, 2, 190] } :=
    exchange_hearing (by decide +kernel) rfl
  have hreply : IsReply ([] ++ Line.header ++ [1, 4, 0, 5, 128, 117]) 1 4 0
      (host2Scs false (signMagnitude (-5))) :=
    (isReply_iff (Nat.zero_le _) (by decide)).mpr (by decide +kernel)
  exact ⟨_, _, rfl, readPos_of_reply rfl hex hreply⟩

end Scs

/-! ### Time -/

namespace Line

variable {l : Line} {δ : ℕ}

/-- When all passes are over. -/
def endTime (l : Line) : ℕ := l.now + (l.polls.map Poll.dt).sum

/-- The passes take at most `δ` each. -/
def Steady (l : Line) (δ : ℕ) : Prop := ∀ p ∈ l.polls, p.dt ≤ δ

/-- By the time `T` there is a result, with the passes behind it left. -/
def Within {α : Type} (l : Line) (δ T : ℕ) (r : Option (α × Line)) : Prop :=
  T < l.endTime → ∃ a l', r = some (a, l') ∧ l'.now ≤ T ∧ l'.endTime = l.endTime ∧ l'.Steady δ

theorem within_readLoop {t0 now nLen : ℕ} {ps : List Poll} (h : Steady ⟨now, ps⟩ δ) :
    Within ⟨now, ps⟩ δ (max now (t0 + 50000) + nLen * δ) (readLoop t0 nLen now ps) := by
  intro hlong
  induction ps generalizing now nLen with
  | nil =>
    cases nLen with
    | zero => exact ⟨[], _, rfl, by simp, rfl, h⟩
    | succ nLen =>
      simp [endTime] at hlong
      omega
  | cons p ps ih =>
    cases nLen with
    | zero => exact ⟨[], _, rfl, by simp, rfl, h⟩
    | succ nLen =>
      have hdt := h p List.mem_cons_self
      have hrest : Steady ⟨now + p.dt, ps⟩ δ := fun q hq => h q (List.mem_cons_of_mem p hq)
      have hend : endTime ⟨now + p.dt, ps⟩ = endTime ⟨now, p :: ps⟩ := by
        simp [endTime, Nat.add_assoc]
      have htimeout : ioTimeOut * 1000 = 50000 := rfl
      rw [← hend] at hlong ⊢
      rw [Nat.succ_mul] at hlong ⊢
      rw [readLoop]
      cases hp : p.readable with
      | some b =>
        obtain ⟨bs, l', hr, hnow, hres⟩ := @ih (now + p.dt) nLen hrest (by omega)
        exact ⟨b :: bs, l', by simp only [hr, Option.map_some], by omega, hres⟩
      | none =>
        simp only [htimeout]
        by_cases hover : now + p.dt - t0 > 50000
        · rw [if_pos hover]
          exact ⟨[], _, rfl, by simp only; omega, rfl, hrest⟩
        · rw [if_neg hover]
          have hsucc : (nLen + 1) * δ = nLen * δ + δ := Nat.add_one_mul nLen δ
          obtain ⟨bs, l', hr, hnow, hres⟩ := @ih (now + p.dt) (nLen + 1) hrest (by omega)
          exact ⟨bs, l', hr, by omega, hres⟩

theorem within_readSCS (nLen : ℕ) (h : l.Steady δ) :
    l.Within δ (l.now + 50000 + nLen * δ) (l.readSCS nLen) := by
  have hread := @within_readLoop δ l.now l.now nLen l.polls h
  rwa [Nat.max_eq_right (Nat.le_add_right _ _)] at hread

/-- Each byte in front of the header takes one read. -/
theorem within_headLoop (n : ℕ) (last : UInt8) (h : l.Steady δ) :
    l.Within δ (l.now + n * (50000 + δ)) (l.headLoop n last) := by
  intro hlong
  induction n generalizing l last with
  | zero => exact ⟨false, l, rfl, by simp, rfl, h⟩
  | succ n ih =>
    rw [Nat.succ_mul] at hlong ⊢
    obtain ⟨bs, l₁, hread, hnow, hend, hsteady⟩ := within_readSCS 1 h (by omega)
    rw [headLoop, hread]
    cases bs with
    | nil => exact ⟨false, l₁, rfl, by omega, hend, hsteady⟩
    | cons b bs =>
      simp only
      split_ifs
      · exact ⟨true, l₁, rfl, by omega, hend, hsteady⟩
      · obtain ⟨ok, l₂, hloop, hnow₂, hend₂, hsteady₂⟩ := ih b hsteady (by omega)
        exact ⟨ok, l₂, hloop, by omega, hend₂.trans hend, hsteady₂⟩

end Line

namespace Scs

variable {s : Scs} {δ : ℕ}

/-- A status is there in time, or not at all. -/
theorem status_returns (test : UInt8 → Bool) (h : s.line.Steady δ)
    (hlong : s.line.now + 600000 + 15 * δ < s.line.endTime) :
    ∃ r t, s.status test = some (r, t) ∧ t.line.now ≤ s.line.now + 600000 + 15 * δ := by
  obtain ⟨ok, l, hhead, hnow, hend, hsteady⟩ := Line.within_headLoop 11 0 h (by omega)
  rw [status, Line.checkHead, hhead]
  cases ok with
  | false => exact ⟨none, _, rfl, by simp only; omega⟩
  | true =>
    obtain ⟨bs, l₁, hread, hnow₁, -⟩ := Line.within_readSCS 4 hsteady (by omega)
    have hin : l₁.now ≤ s.line.now + 600000 + 15 * δ := by omega
    simp only [hread]
    split
    · next heq => cases heq
    · next heq =>
      obtain ⟨-, rfl⟩ := Prod.mk.inj (Option.some.inj heq)
      split_ifs <;> exact ⟨_, _, rfl, hin⟩
    · next heq =>
      obtain ⟨-, rfl⟩ := Prod.mk.inj (Option.some.inj heq)
      exact ⟨_, _, rfl, hin⟩

/-- **A command holds up core 1 for at most 600 ms**, and for 15 passes of the loops: whatever is on
the bus behind it. -/
theorem ack_returns (id : UInt8) (h : s.line.Steady δ)
    (hlong : s.line.now + 600000 + 15 * δ < s.line.endTime) :
    ∃ ok t, s.ack id = some (ok, t) ∧ t.line.now ≤ s.line.now + 600000 + 15 * δ := by
  rw [ack]
  split_ifs
  · obtain ⟨r, t, hstatus, hnow⟩ :=
      status_returns (s := { s with error := 0 }) (fun b0 => b0 = id) h hlong
    exact ⟨r.isSome, t, by rw [hstatus]; rfl, hnow⟩
  · exact ⟨true, _, rfl, by simp only; omega⟩

/-- The result of `Read` is there in time. -/
theorem readReply_returns (nLen : UInt8) (h : s.line.Steady δ)
    (hlong : s.line.now + 700000 + (15 + nLen.toNat) * δ < s.line.endTime) :
    ∃ r t, s.readReply nLen = some (r, t) ∧
      t.line.now ≤ s.line.now + 700000 + (15 + nLen.toNat) * δ := by
  rw [Nat.add_mul] at hlong ⊢
  obtain ⟨ok, l, hhead, hnow, hend, hsteady⟩ := Line.within_headLoop 11 0 h (by omega)
  rw [readReply, Line.checkHead, hhead]
  cases ok with
  | false => exact ⟨none, _, rfl, by simp only; omega⟩
  | true =>
    obtain ⟨bs, l₁, hread, hnow₁, hend₁, hsteady₁⟩ := Line.within_readSCS 3 hsteady (by omega)
    obtain ⟨nData, l₂, hread₂, hnow₂, hend₂, hsteady₂⟩ :=
      Line.within_readSCS nLen.toNat hsteady₁ (by omega)
    obtain ⟨bs', l₃, hread₃, hnow₃, -⟩ := Line.within_readSCS 1 hsteady₂ (by omega)
    simp only [hread]
    split
    · next heq => cases heq
    · next heq =>
      obtain ⟨-, rfl⟩ := Prod.mk.inj (Option.some.inj heq)
      simp only [hread₂]
      split_ifs
      · exact ⟨none, _, rfl, by simp only; omega⟩
      · simp only [hread₃]
        split
        · next heq => cases heq
        · next heq =>
          obtain ⟨-, rfl⟩ := Prod.mk.inj (Option.some.inj heq)
          split_ifs <;> exact ⟨_, _, rfl, by simp only; omega⟩
        · next heq =>
          obtain ⟨-, rfl⟩ := Prod.mk.inj (Option.some.inj heq)
          exact ⟨none, _, rfl, by simp only; omega⟩
    · next heq =>
      obtain ⟨-, rfl⟩ := Prod.mk.inj (Option.some.inj heq)
      exact ⟨none, _, rfl, by simp only; omega⟩

/-- **`Read` holds up its caller for at most 700 ms**, once the bytes left over are flushed. -/
theorem read_returns (id memAddr nLen : UInt8) {l : Line} (hflush : s.line.rFlushSCS = some l)
    (h : l.Steady δ) (hlong : l.now + 700000 + (15 + nLen.toNat) * δ < l.endTime) :
    ∃ r t, s.read id memAddr nLen = some (r, t) ∧
      t.line.now ≤ l.now + 700000 + (15 + nLen.toNat) * δ := by
  rw [read, send, hflush, Option.map_some, Option.bind_some]
  exact readReply_returns nLen h hlong

/-- So do `ReadPos`, `ReadSpeed`, `ReadLoad` and `ReadCurrent`. -/
theorem readSigned_returns (bit : ℕ) (id memAddr : UInt8) {l : Line}
    (hflush : s.line.rFlushSCS = some l) (h : l.Steady δ)
    (hlong : l.now + 700000 + 17 * δ < l.endTime) :
    ∃ r t, s.readSigned bit id memAddr = some (r, t) ∧ t.line.now ≤ l.now + 700000 + 17 * δ := by
  obtain ⟨r, t, hread, hnow⟩ := read_returns id memAddr 2 hflush h hlong
  rw [readSigned, readWord, hread]
  exact ⟨_, t, rfl, hnow⟩

/-- A servo that does not reply. -/
theorem ack_returns_silent : ∃ ok t,
    ({ line := ⟨0, List.replicate 80 ⟨10000, none⟩⟩ } : Scs).ack 1 = some (ok, t) ∧
      t.line.now ≤ 0 + 600000 + 15 * 10000 := by
  refine ack_returns (s := { line := ⟨0, List.replicate 80 ⟨10000, none⟩⟩ }) 1 ?_
    (by decide +kernel)
  intro p hp
  rw [List.eq_of_mem_replicate hp]

end Scs

end PicoUros.Servo
