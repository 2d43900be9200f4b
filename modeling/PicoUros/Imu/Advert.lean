import PicoUros.Imu.Reports

/-!
# The advertisement of the sensor hub

Behind a reset the hub says which applications it has, which numbers their channels have, and how
long its reports are. The message is a list of entries: a tag, a length, and a value. An entry with
a guid begins an application, and the entries behind it are about this application. A channel has
two entries, its number and its name. `processAdvertisement` (`shtp.c`, lines 421–523) reads the
entries into its tables, and hands each of them to the function for the application, of which
`sensorhubAdvertHdlr` (`sh2.c`, lines 358–396) stores the lengths of the reports.

## Main definitions

* `AdvertItem`, `AdvertApp`, `Advertisement`: what the hub says, and its bytes.
* `Advertisement.declared`, `Advertisement.tables`: the channels and the lengths in it.
* `Told`: the tables say what they said, and what the hub says.

## Main results

* `Sh2.shtpCmdListener_advert`: an advertisement is read, and the tables say what it says.
* `Client.advertised`: behind an advertisement, each channel has the function for its new name.
* `Client.sessions_delivered`: the driver hears of the reports behind each advertisement.
-/

namespace PicoUros.Imu

/-! ### Advertisements -/

/-- A text that has room in `k` bytes, with its terminator. -/
structure Text (k : ℕ) where
  chars : List UInt8
  zero_notMem : 0 ∉ chars
  length_lt : chars.length < k

def Text.bytes {k : ℕ} (x : Text k) : List UInt8 := x.chars ++ [0]

/-- What the hub says about an application. -/
inductive AdvertItem where
  | maxPayloadWrite (n : UInt16)
  | maxPayloadRead (n : UInt16)
  | maxTransferWrite (n : UInt16)
  | maxTransferRead (n : UInt16)
  | appName (name : Text nameLen)
  | channel (wake : Bool) (chanNo : UInt8) (name : Text nameLen)
  | version (text : Text 17)
  | reportLengths (lengths : List (UInt8 × UInt8)) (h : 2 * lengths.length < 256)
  | other (tag : UInt8) (val : List UInt8) (htag : 9 < tag ∧ tag ≠ 0x80 ∧ tag ≠ 0x81)
    (hval : val.length < 256)

/-- The bytes of an entry. -/
def entryBytes (tag : UInt8) (val : List UInt8) : List UInt8 := tag :: UInt8.ofNat val.length :: val

namespace AdvertItem

def bytes : AdvertItem → List UInt8
  | maxPayloadWrite n => entryBytes 2 (leBytes 2 n.toNat)
  | maxPayloadRead n => entryBytes 3 (leBytes 2 n.toNat)
  | maxTransferWrite n => entryBytes 4 (leBytes 2 n.toNat)
  | maxTransferRead n => entryBytes 5 (leBytes 2 n.toNat)
  | appName name => entryBytes 8 name.bytes
  | channel wake chanNo name =>
    entryBytes (if wake then 7 else 6) [chanNo] ++ entryBytes 9 name.bytes
  | version text => entryBytes 0x80 text.bytes
  | reportLengths lengths _ => entryBytes 0x81 (lengths.flatMap fun p => [p.1, p.2])
  | other tag val _ _ => entryBytes tag val

end AdvertItem

/-- A channel of an application. -/
structure Declared where
  chanNo : UInt8
  guid : UInt32
  name : List UInt8

/-- What the hub says about an application. -/
structure AdvertApp where
  guid : UInt32
  items : List AdvertItem

def AdvertApp.bytes (a : AdvertApp) : List UInt8 :=
  entryBytes 1 (leBytes 4 a.guid.toNat) ++ a.items.flatMap AdvertItem.bytes

/-- What the hub says. -/
structure Advertisement where
  apps : List AdvertApp

def Advertisement.bytes (adv : Advertisement) : List UInt8 := 0 :: adv.apps.flatMap AdvertApp.bytes

/-! ### What an advertisement says -/

/-- The channel that an item is about. -/
def AdvertItem.declared (guid : UInt32) : AdvertItem → List Declared
  | channel _ chanNo name => [⟨chanNo, guid, name.chars⟩]
  | _ => []

/-- The lengths of reports, if it is the application `sensorhub`. -/
def AdvertItem.tables (guid : UInt32) : AdvertItem → List (List (UInt8 × UInt8))
  | reportLengths lengths _ => if guid = 2 then [lengths] else []
  | _ => []

namespace Advertisement

variable (adv : Advertisement)

/-- The channels in an advertisement. -/
def declared : List Declared :=
  adv.apps.flatMap fun a => a.items.flatMap (AdvertItem.declared a.guid)

/-- The lists of lengths in an advertisement. -/
def tables : List (List (UInt8 × UInt8)) :=
  adv.apps.flatMap fun a => a.items.flatMap (AdvertItem.tables a.guid)

end Advertisement

/-- The name of a channel, when the channels `ds` have been named. -/
def namedBy (ds : List Declared) (c : Fin 8) (old : UInt32 × List UInt8) : UInt32 × List UInt8 :=
  ds.foldl (fun x d => if d.chanNo.toNat = c.val then (d.guid, d.name) else x) old

/-- The table of the lengths, with `lengths` in its first places. -/
def storeLengths (b : Buffer maxReportIds (UInt8 × UInt8)) (lengths : List (UInt8 × UInt8)) :
    Buffer maxReportIds (UInt8 × UInt8) :=
  (b.write 0 (lengths.take maxReportIds)).getD b

/-- Between `s` and `t` the channels `ds` are named, and the lengths `ls` stored. -/
structure Told (ds : List Declared) (ls : List (List (UInt8 × UInt8))) (s t : Sh2) : Prop where
  named : ∀ c, t.shtp.named c = namedBy ds c (s.shtp.named c)
  appListener : t.shtp.appListener = s.shtp.appListener
  report : t.report = ls.foldl storeLengths s.report
  notes : t.notes = s.notes
  sensorCallback : s.sensorCallback = true → t.sensorCallback = true
  lastHostInt : t.lastHostInt = s.lastHostInt
  rollovers : t.rollovers = s.rollovers

namespace Told

variable {s t u : Sh2} {ds ds' : List Declared} {ls ls' : List (List (UInt8 × UInt8))}

theorem refl (s : Sh2) : Told [] [] s s := ⟨fun _ => rfl, rfl, rfl, rfl, id, rfl, rfl⟩

theorem trans (h : Told ds ls s t) (h' : Told ds' ls' t u) : Told (ds ++ ds') (ls ++ ls') s u where
  named := fun c => by rw [h'.named, h.named, namedBy, namedBy, namedBy, List.foldl_append]
  appListener := h'.appListener.trans h.appListener
  report := by rw [h'.report, h.report, List.foldl_append]
  notes := h'.notes.trans h.notes
  sensorCallback := h'.sensorCallback ∘ h.sensorCallback
  lastHostInt := h'.lastHostInt.trans h.lastHostInt
  rollovers := h'.rollovers.trans h.rollovers

/-- A change of the transport protocol that names no channel. -/
theorem of_shtp {v : Shtp} (h : s.shtp.Agrees v) : Told [] [] s { s with shtp := v } :=
  ⟨fun c => congrFun h.named c, h.appListener, rfl, rfl, id, rfl, rfl⟩

theorem of_unheard (h : s.Unheard t) : Told [] [] s t where
  named := fun c => by
    obtain ⟨n, hn⟩ := h.chan c
    rw [Shtp.named, hn]
    rfl
  appListener := by rw [h.shtp_eq]
  report := h.report
  notes := h.notes
  sensorCallback := h.sensorCallback
  lastHostInt := h.lastHostInt
  rollovers := h.rollovers

end Told

/-! ### Entries -/

namespace Shtp

variable (s : Shtp)

theorem agrees_addApp (guid : UInt32) : s.Agrees (s.addApp guid) := by
  unfold addApp
  split_ifs
  exacts [.refl s, .refl s, ⟨rfl, rfl⟩]

theorem named_addChannel (chanNo : UInt8) (guid : UInt32) (name : List UInt8) (c : Fin 8) :
    (s.addChannel chanNo guid name).named c =
      if chanNo.toNat = c.val then (guid, name) else s.named c := by
  unfold addChannel
  split_ifs with hlt hc hc
  · have hfin : c = ⟨chanNo.toNat, hlt⟩ := Fin.ext hc.symm
    simp only [named, updateCallbacks, hfin, Function.update_self]
  · have hfin : c ≠ ⟨chanNo.toNat, hlt⟩ := fun he => hc (congrArg Fin.val he).symm
    simp only [named, updateCallbacks, Function.update_of_ne hfin]
  · exact absurd (hc ▸ c.isLt) hlt
  · rfl

theorem appListener_addChannel (chanNo : UInt8) (guid : UInt32) (name : List UInt8) :
    (s.addChannel chanNo guid name).appListener = s.appListener := by
  unfold addChannel
  split_ifs <;> rfl

end Shtp

/-- A text is read where it stands. -/
theorem Text.text_of_drop {n k : ℕ} {b : Buffer n UInt8} {i : ℕ} {rest : List UInt8} (x : Text k)
    (h : b.elems.drop i = x.bytes ++ rest) : b.text i = some x.chars := by
  have hcstr : cstr (b.elems.drop i) = x.chars := by
    rw [h, Text.bytes, List.append_assoc, cstr, List.takeWhile_append_of_pos]
    · simp
    · exact fun c hc => bne_iff_ne.mpr fun he => x.zero_notMem (he ▸ hc)
  have hzero : 0 ∈ b.elems.drop i := by
    rw [h, Text.bytes]
    simp
  rw [Buffer.text, if_pos hzero, hcstr]

theorem Text.textIn_of_drop {n k : ℕ} {b : Buffer n UInt8} {i : ℕ} {rest : List UInt8} (x : Text k)
    (h : b.elems.drop i = x.bytes ++ rest) : b.textIn i k = some x.chars := by
  rw [Buffer.textIn, x.text_of_drop h, Option.bind_some, if_pos x.length_lt]

theorem Text.length_bytes_lt {k : ℕ} (x : Text k) (hk : k ≤ 255) : x.bytes.length < 256 := by
  have hlt := x.length_lt
  rw [Text.bytes, List.length_append, List.length_singleton]
  omega

/-- The bytes of a list of pairs. -/
theorem getElem?_flatMap_pair (l : List (UInt8 × UInt8)) (i : ℕ) :
    (l.flatMap fun p => [p.1, p.2])[2 * i]? = l[i]?.map Prod.fst ∧
      (l.flatMap fun p => [p.1, p.2])[2 * i + 1]? = l[i]?.map Prod.snd := by
  induction l generalizing i with
  | nil => exact ⟨rfl, rfl⟩
  | cons p l ih =>
    cases i with
    | zero => exact ⟨rfl, rfl⟩
    | succ i => exact ih i

theorem length_flatMap_pair (l : List (UInt8 × UInt8)) :
    (l.flatMap fun p => [p.1, p.2]).length = 2 * l.length := by
  induction l with
  | nil => rfl
  | cons p l ih =>
    simp only [List.flatMap_cons, List.length_append, List.length_cons, List.length_nil, ih]
    omega

/-- The pairs are read back, as many as are wanted. -/
theorem map_range_pair {l : List (UInt8 × UInt8)} {k : ℕ} (hk : k ≤ l.length) :
    ((List.range k).map fun n =>
      (((l.flatMap fun p => [p.1, p.2]).take (2 * k)).getD (2 * n) 0,
        ((l.flatMap fun p => [p.1, p.2]).take (2 * k)).getD (2 * n + 1) 0)) = l.take k := by
  refine List.ext_getElem (by simpa using hk) fun i hi hi' => ?_
  rw [List.length_map, List.length_range] at hi
  obtain ⟨hfst, hsnd⟩ := getElem?_flatMap_pair l i
  rw [List.getElem?_eq_getElem (hi.trans_le hk), Option.map_some] at hfst hsnd
  simp only [List.getElem_map, List.getElem_range, List.getElem_take, List.getD_eq_getElem?_getD,
    List.getElem?_take_of_lt (show 2 * i < 2 * k by omega),
    List.getElem?_take_of_lt (show 2 * i + 1 < 2 * k by omega), hfst, hsnd, Option.getD_some]

namespace Sh2

variable {s t : Sh2} {a b : Advert} {guid : UInt32} {tag n : UInt8} {val : ℕ}

/-- The function for an application, when the listeners are those of `sh2_open`. -/
theorem callAdvertHandler_eq (happ : s.shtp.appListener = advertListeners) :
    s.callAdvertHandler guid tag n val =
      if guid = 0 then s.shtpAdvertHdlr tag val
      else if guid = 2 then s.sensorhubAdvertHdlr tag n val
      else some s := by
  unfold callAdvertHandler
  rw [happ]
  split_ifs with h0 h2
  · subst h0
    rfl
  · subst h2
    rfl
  · by_cases h1 : guid = 1
    · subst h1
      rfl
    · have hnone : (advertListeners.find? fun l => l.guid.toUInt32 == guid) = none := by
        rw [List.find?_eq_none]
        intro l hl
        simp only [advertListeners, List.mem_cons, List.not_mem_nil, or_false] at hl
        rcases hl with rfl | rfl | rfl <;> simpa using Ne.symm ‹_›
      rw [hnone]

/-- An entry that is not about the application itself. -/
theorem callAdvertHandler_other (happ : s.shtp.appListener = advertListeners) (h0 : tag ≠ 0)
    (h80 : tag ≠ 0x80) (h81 : tag ≠ 0x81) : s.callAdvertHandler guid tag n val = some s := by
  rw [callAdvertHandler_eq happ, shtpAdvertHdlr, if_neg h80]
  split_ifs
  · rfl
  · unfold sensorhubAdvertHdlr
    split
    exacts [absurd rfl h80, absurd rfl h81, absurd rfl h0, rfl]
  · rfl

/-- The end of an application. -/
theorem callAdvertHandler_end (happ : s.shtp.appListener = advertListeners) (guid : UInt32) :
    ∃ t, s.callAdvertHandler guid 0 0 0 = some t ∧ t.shtp = s.shtp ∧ Told [] [] s t := by
  rw [callAdvertHandler_eq happ]
  split_ifs
  exacts [⟨s, rfl, rfl, .refl s⟩, ⟨_, rfl, rfl, fun _ => rfl, rfl, rfl, rfl, id, rfl, rfl⟩,
    ⟨s, rfl, rfl, .refl s⟩]

/-- What the loop does with an entry: the switch, and the function for the application. -/
def advertEntry (s : Sh2) (a : Advert) (tag n : UInt8) (val : ℕ) : Option (Sh2 × Advert) :=
  (s.advertTag a tag val).bind fun r =>
    (r.1.callAdvertHandler r.2.guid tag n val).map fun t => (t, r.2)

theorem advertEntry_keeps (h : s.advertEntry a tag n val = some (t, b)) : Keeps s t := by
  obtain ⟨⟨u, c⟩, hu, h⟩ := Option.bind_eq_some_iff.mp h
  obtain ⟨v, hv, h⟩ := Option.map_eq_some_iff.mp h
  cases h
  exact (advertTag_keeps hu).trans (callAdvertHandler_keeps hv)

/-- The loop reads the entry at the cursor. -/
theorem advertLoop_entry {cursor len fuel : ℕ} {value rest : List UInt8}
    (hbytes : s.shtp.inPayload.elems.drop cursor = entryBytes tag value ++ rest)
    (hval : value.length < 256) (hlt : cursor < len)
    (hentry : s.advertEntry a tag (UInt8.ofNat value.length) (cursor + 2) = some (t, b)) :
    advertLoop len (fuel + 1) s a cursor =
      advertLoop len fuel t b (cursor + (entryBytes tag value).length) := by
  have htag : s.shtp.inPayload.elems[cursor]? = some tag := getElem?_of_drop hbytes
  have hlen : s.shtp.inPayload.elems[cursor + 1]? = some (UInt8.ofNat value.length) :=
    getElem?_of_drop (by rw [← List.drop_drop, hbytes]; rfl)
  obtain ⟨⟨u, c⟩, hu, h⟩ := Option.bind_eq_some_iff.mp hentry
  obtain ⟨v, hv, h⟩ := Option.map_eq_some_iff.mp h
  cases h
  have hnext : cursor + 2 + (UInt8.ofNat value.length).toNat =
      cursor + (entryBytes tag value).length := by
    rw [UInt8.toNat_ofNat_of_lt' hval, entryBytes, List.length_cons, List.length_cons]
    omega
  rw [advertLoop, if_pos hlt]
  simp only [htag, hlen, hu, hv, Option.bind_eq_bind, Option.bind_some, hnext]

/-- An entry that is not about the application itself. -/
theorem advertEntry_of_tag (htag : s.advertTag a tag val = some (t, b))
    (happ : t.shtp.appListener = advertListeners) (h0 : tag ≠ 0) (h80 : tag ≠ 0x80)
    (h81 : tag ≠ 0x81) : s.advertEntry a tag n val = some (t, b) := by
  rw [advertEntry, htag, Option.bind_some, callAdvertHandler_other happ h0 h80 h81]
  rfl

/-- The version of an application is read. -/
theorem advertEntry_version {rest : List UInt8} (happ : s.shtp.appListener = advertListeners)
    (text : Text 17) (hbytes : s.shtp.inPayload.elems.drop val = text.bytes ++ rest) :
    s.advertEntry a 0x80 n val = some (s, a) := by
  have hcall : s.callAdvertHandler a.guid 0x80 n val = some s := by
    rw [callAdvertHandler_eq happ]
    split_ifs
    · simp only [shtpAdvertHdlr, text.text_of_drop hbytes, if_true, Option.map_some]
    · simp only [sensorhubAdvertHdlr, text.textIn_of_drop hbytes, Option.map_some]
    · rfl
  change (s.callAdvertHandler a.guid 0x80 n val).map (fun t => (t, a)) = some (s, a)
  rw [hcall]
  rfl

/-- The lengths of the reports are stored. -/
theorem advertEntry_lengths {rest : List UInt8} (happ : s.shtp.appListener = advertListeners)
    {lengths : List (UInt8 × UInt8)} (h : 2 * lengths.length < 256) (hval : val ≤ maxIn)
    (hbytes : s.shtp.inPayload.elems.drop val = (lengths.flatMap fun p => [p.1, p.2]) ++ rest) :
    s.advertEntry a 0x81 (UInt8.ofNat (lengths.flatMap fun p => [p.1, p.2]).length) val =
      some (if a.guid = 2 then { s with report := storeLengths s.report lengths } else s, a) := by
  have hcall : s.callAdvertHandler a.guid 0x81
      (UInt8.ofNat (lengths.flatMap fun p => [p.1, p.2]).length) val =
        some (if a.guid = 2 then { s with report := storeLengths s.report lengths } else s) := by
    rw [callAdvertHandler_eq happ]
    split_ifs with h0 h2 h2
    · rw [h0] at h2
      exact absurd h2 (by decide)
    · rfl
    · have hlen : (UInt8.ofNat (lengths.flatMap fun p => [p.1, p.2]).length).toNat / 2 =
          lengths.length := by
        rw [length_flatMap_pair, UInt8.toNat_ofNat_of_lt' h]
        omega
      have hle : 2 * min lengths.length maxReportIds ≤
          (lengths.flatMap fun p => [p.1, p.2]).length := by
        rw [length_flatMap_pair]
        omega
      have hread : s.shtp.inPayload.read val (2 * min lengths.length maxReportIds) =
          some ((lengths.flatMap fun p => [p.1, p.2]).take
            (2 * min lengths.length maxReportIds)) := by
        have hroom := congrArg List.length hbytes
        rw [List.length_drop, List.length_append, s.shtp.inPayload.length_elems] at hroom
        rw [Buffer.read_eq_some_iff, hbytes, List.take_append_of_le_length hle]
        exact ⟨by omega, rfl⟩
      obtain ⟨c, hc⟩ := Buffer.exists_write (b := s.report) (i := 0)
        (l := lengths.take maxReportIds) (by rw [List.length_take]; omega)
      have htake : lengths.take (min lengths.length maxReportIds) = lengths.take maxReportIds := by
        rw [min_comm, ← List.take_take, List.take_length]
      simp only [sensorhubAdvertHdlr, hlen, hread, Option.bind_some,
        map_range_pair (min_le_left _ _), htake, hc, Option.map_some, storeLengths,
        Option.getD_some]
    · rfl
  rw [advertEntry]
  change (s.callAdvertHandler a.guid 0x81 _ val).map (fun t => (t, a)) = _
  rw [hcall]
  rfl

/-- The loop reads the bytes `l`, and goes on behind them. The tables then say what they said, and
the channels `ds` and the lengths `ls`. -/
def Reads (a : Advert) (l : List UInt8) (b : Advert) (ds : List Declared)
    (ls : List (List (UInt8 × UInt8))) : Prop :=
  ∀ ⦃s : Sh2⦄ ⦃cursor len fuel : ℕ⦄ ⦃rest : List UInt8⦄, s.shtp.appListener = advertListeners →
    s.shtp.inPayload.elems.drop cursor = l ++ rest → cursor + l.length ≤ len → l.length ≤ fuel →
      ∃ t fuel', advertLoop len fuel s a cursor = advertLoop len fuel' t b (cursor + l.length) ∧
        fuel ≤ fuel' + l.length ∧ Keeps s t ∧ Told ds ls s t

namespace Reads

variable {c : Advert} {l l' : List UInt8} {ds ds' : List Declared}
  {ls ls' : List (List (UInt8 × UInt8))}

theorem nil (a : Advert) : Reads a [] a [] [] :=
  fun s _ _ fuel _ _ _ _ _ => ⟨s, fuel, rfl, le_rfl, .refl s, .refl s⟩

theorem append (h : Reads a l b ds ls) (h' : Reads b l' c ds' ls') :
    Reads a (l ++ l') c (ds ++ ds') (ls ++ ls') := by
  intro s cursor len fuel rest happ hbytes hlen hfuel
  rw [List.length_append] at hlen hfuel
  rw [List.append_assoc] at hbytes
  have hlen₁ : cursor + l.length ≤ len := by omega
  have hfuel₁ : l.length ≤ fuel := by omega
  obtain ⟨t, fuel₁, heq, hle, hkeeps, htold⟩ := h happ hbytes hlen₁ hfuel₁
  have hbytes' : t.shtp.inPayload.elems.drop (cursor + l.length) = l' ++ rest := by
    rw [hkeeps.inPayload, ← List.drop_drop, hbytes, List.drop_left]
  have hlen₂ : cursor + l.length + l'.length ≤ len := by omega
  have hfuel₂ : l'.length ≤ fuel₁ := by omega
  obtain ⟨u, fuel₂, heq', hle', hkeeps', htold'⟩ :=
    h' (hkeeps.appListener.trans happ) hbytes' hlen₂ hfuel₂
  refine ⟨u, fuel₂, ?_, ?_, hkeeps.trans hkeeps', htold.trans htold'⟩
  · rw [heq, heq', List.length_append, Nat.add_assoc]
  · rw [List.length_append]
    omega

/-- What the loop does with one entry. -/
theorem entry {value : List UInt8} (hval : value.length < 256)
    (h : ∀ ⦃s : Sh2⦄ ⦃val : ℕ⦄ ⦃rest : List UInt8⦄, s.shtp.appListener = advertListeners →
      val ≤ maxIn → s.shtp.inPayload.elems.drop val = value ++ rest →
        ∃ t, s.advertEntry a tag (UInt8.ofNat value.length) val = some (t, b) ∧ Told ds ls s t) :
    Reads a (entryBytes tag value) b ds ls := by
  intro s cursor len fuel rest happ hbytes hlen hfuel
  have hroom := congrArg List.length hbytes
  rw [List.length_drop, List.length_append, s.shtp.inPayload.length_elems] at hroom
  simp only [entryBytes, List.length_cons] at hroom hlen hfuel
  have hbytes' : s.shtp.inPayload.elems.drop (cursor + 2) = value ++ rest := by
    rw [← List.drop_drop, hbytes]
    rfl
  obtain ⟨t, ht, htold⟩ := h happ (by omega) hbytes'
  obtain ⟨fuel, rfl⟩ : ∃ n, fuel = n + 1 := ⟨fuel - 1, by omega⟩
  refine ⟨t, fuel, advertLoop_entry hbytes hval (by omega) ht, ?_, advertEntry_keeps ht, htold⟩
  simp only [entryBytes, List.length_cons]
  omega

/-- An entry with a number. -/
theorem number {x : UInt16} {f : UInt16 → Shtp → Shtp} (hnot : tag ≠ 0 ∧ tag ≠ 0x80 ∧ tag ≠ 0x81)
    (htag : ∀ (s : Sh2) (val : ℕ), s.advertTag a tag val =
      (s.shtp.inPayload.readu16 val).map fun x => ({ s with shtp := f x s.shtp }, a))
    (hf : ∀ v, Shtp.Agrees v (f x v)) : Reads a (entryBytes tag (leBytes 2 x.toNat)) a [] [] := by
  refine .entry (by rw [length_leBytes]; decide) fun s val rest happ _ hbytes => ?_
  have hread : s.advertTag a tag val = some ({ s with shtp := f x s.shtp }, a) := by
    rw [htag, readu16_of_drop hbytes, Option.map_some]
  exact ⟨_, advertEntry_of_tag hread ((hf s.shtp).appListener.trans happ) hnot.1 hnot.2.1 hnot.2.2,
    .of_shtp (hf s.shtp)⟩

/-- **An item is read.** -/
theorem item (a : Advert) (i : AdvertItem) :
    ∃ b, b.guid = a.guid ∧ Reads a i.bytes b (i.declared a.guid) (i.tables a.guid) := by
  cases i with
  | maxPayloadWrite x =>
    refine ⟨a, rfl, number (f := fun x v =>
      if x - 4 < 256 then { v with outMaxPayload := (x - 4).toNat } else v)
        (by decide) (fun s val => ?_) fun v => ?_⟩
    · cases h : s.shtp.inPayload.readu16 val with
      | none => simp [advertTag, h]
      | some x =>
        simp only [advertTag, h, Option.bind_eq_bind, Option.bind_some, Option.map_some]
        split_ifs <;> rfl
    · split_ifs
      exacts [⟨rfl, rfl⟩, .refl v]
  | maxPayloadRead x =>
    exact ⟨a, rfl, number (f := fun _ v => v) (by decide) (fun _ _ => rfl) .refl⟩
  | maxTransferWrite x =>
    refine ⟨a, rfl, number (f := fun x v =>
      { v with outMaxTransfer := if x - 4 < 256 then (x - 4).toNat else maxOut })
        (by decide) (fun s val => ?_) fun v => ⟨rfl, rfl⟩⟩
    cases h : s.shtp.inPayload.readu16 val <;> simp [advertTag, h]
  | maxTransferRead x =>
    exact ⟨a, rfl, number (f := fun _ v => v) (by decide) (fun _ _ => rfl) .refl⟩
  | appName name =>
    refine ⟨a, rfl, .entry (name.length_bytes_lt (by decide)) fun s val rest happ _ hbytes => ?_⟩
    refine ⟨{ s with shtp := s.shtp.setAppName a.guid name.chars }, advertEntry_of_tag ?_ happ
      (by decide) (by decide) (by decide), .of_shtp ⟨rfl, rfl⟩⟩
    simp only [advertTag, name.textIn_of_drop hbytes, Option.map_some]
  | channel wake chanNo name =>
    have hnumber :
        Reads a (entryBytes (if wake then 7 else 6) [chanNo]) { a with chanNo } [] [] := by
      refine .entry (by simp) fun s val rest happ _ hbytes => ?_
      have hget : s.shtp.inPayload.elems[val]? = some chanNo := getElem?_of_drop hbytes
      refine ⟨s, advertEntry_of_tag ?_ happ ?_ ?_ ?_, .refl s⟩
      · cases wake <;> simp [advertTag, hget]
      all_goals cases wake <;> decide
    have hname : Reads { a with chanNo } (entryBytes 9 name.bytes) { a with chanNo }
        [⟨chanNo, a.guid, name.chars⟩] [] := by
      refine .entry (name.length_bytes_lt (by decide)) fun s val rest happ _ hbytes => ?_
      refine ⟨{ s with shtp := s.shtp.addChannel chanNo a.guid name.chars },
        advertEntry_of_tag ?_ ?_ (by decide) (by decide) (by decide),
        fun c => Shtp.named_addChannel .., Shtp.appListener_addChannel .., rfl, rfl, id, rfl, rfl⟩
      · simp only [advertTag, name.textIn_of_drop hbytes, Option.map_some]
      · exact (Shtp.appListener_addChannel ..).trans happ
    exact ⟨{ a with chanNo }, rfl, hnumber.append hname⟩
  | version text =>
    exact ⟨a, rfl, .entry (text.length_bytes_lt (by decide)) fun s val rest happ _ hbytes =>
      ⟨s, advertEntry_version happ text hbytes, .refl s⟩⟩
  | reportLengths lengths h =>
    refine ⟨a, rfl, .entry (by rwa [length_flatMap_pair]) fun s val rest happ hval hbytes =>
      ⟨_, advertEntry_lengths happ h hval hbytes, ?_⟩⟩
    rw [AdvertItem.tables]
    split_ifs
    exacts [⟨fun _ => rfl, rfl, rfl, rfl, id, rfl, rfl⟩, .refl s]
  | other tag val htag hval =>
    refine ⟨a, rfl, .entry hval fun s val rest happ _ _ =>
      ⟨s, advertEntry_of_tag ?_ happ ?_ htag.2.1 htag.2.2, .refl s⟩⟩
    · unfold advertTag
      split
      all_goals first | rfl | exact absurd htag.1 (by decide)
    · rintro rfl
      exact absurd htag.1 (by decide)

theorem items (a : Advert) (is : List AdvertItem) :
    ∃ b, b.guid = a.guid ∧ Reads a (is.flatMap AdvertItem.bytes) b
      (is.flatMap (AdvertItem.declared a.guid)) (is.flatMap (AdvertItem.tables a.guid)) := by
  induction is generalizing a with
  | nil => exact ⟨a, rfl, .nil a⟩
  | cons i is ih =>
    obtain ⟨b, hb, hitem⟩ := item a i
    obtain ⟨c, hc, hitems⟩ := ih b
    rw [hb] at hc hitems
    exact ⟨c, hc, hitem.append hitems⟩

/-- A guid ends an application and begins another one. -/
theorem newApp (a : Advert) (guid : UInt32) :
    Reads a (entryBytes 1 (leBytes 4 guid.toNat)) { a with guid } [] [] := by
  refine .entry (by rw [length_leBytes]; decide) fun s val rest happ _ hbytes => ?_
  obtain ⟨t, ht, hshtp, htold⟩ := callAdvertHandler_end happ a.guid
  have hagrees := Shtp.agrees_addApp t.shtp guid
  refine ⟨{ t with shtp := t.shtp.addApp guid }, advertEntry_of_tag ?_ ?_ (by decide) (by decide)
    (by decide), htold.trans (.of_shtp hagrees)⟩
  · simp only [advertTag, ht, readu32_of_drop hbytes, Option.bind_eq_bind, Option.bind_some]
  · exact hagrees.appListener.trans (by rw [hshtp, happ])

theorem apps (a : Advert) (as : List AdvertApp) :
    ∃ b, Reads a (as.flatMap AdvertApp.bytes) b
      (as.flatMap fun x => x.items.flatMap (AdvertItem.declared x.guid))
      (as.flatMap fun x => x.items.flatMap (AdvertItem.tables x.guid)) := by
  induction as generalizing a with
  | nil => exact ⟨a, .nil a⟩
  | cons x as ih =>
    obtain ⟨b, -, hitems⟩ := items { a with guid := x.guid } x.items
    obtain ⟨c, happs⟩ := ih b
    exact ⟨c, ((newApp a x.guid).append hitems).append happs⟩

end Reads

/-- **An advertisement is read**, and the tables say what it says. -/
theorem shtpCmdListener_advert {adv : Advertisement} {stale : List UInt8}
    (happ : s.shtp.appListener = advertListeners)
    (hbytes : s.shtp.inPayload.elems.drop 0 = adv.bytes ++ stale) :
    ∃ t, s.shtpCmdListener adv.bytes.length = some t ∧ Told adv.declared adv.tables s t := by
  obtain ⟨b, hreads⟩ := Reads.apps {} adv.apps
  have hphase : Told [] [] s { s with shtp := { s.shtp with advertPhase := .idle } } :=
    .of_shtp ⟨rfl, rfl⟩
  have hfirst : s.shtp.inPayload.elems[0]? = some 0 := getElem?_of_drop hbytes
  have hbytes' : s.shtp.inPayload.elems.drop 1 = adv.apps.flatMap AdvertApp.bytes ++ stale := by
    rw [← Nat.zero_add 1, ← List.drop_drop, hbytes]
    rfl
  have hlen : adv.bytes.length = 1 + (adv.apps.flatMap AdvertApp.bytes).length := by
    rw [Advertisement.bytes, List.length_cons, Nat.add_comm]
  obtain ⟨t, fuel, hloop, -, hkeeps, htold⟩ :=
    hreads (s := { s with shtp := { s.shtp with advertPhase := .idle } }) happ hbytes'
      hlen.ge (hlen ▸ Nat.le_add_left _ 1)
  have hend : advertLoop adv.bytes.length fuel t b adv.bytes.length = some (t, b) := by
    cases fuel <;> simp [advertLoop]
  rw [← hlen, hend] at hloop
  obtain ⟨u, hu, -, htold'⟩ := callAdvertHandler_end (hkeeps.appListener.trans happ) b.guid
  refine ⟨u, ?_, ?_⟩
  · rw [shtpCmdListener, if_neg (by omega), hfirst, Option.bind_some, if_pos rfl,
      processAdvertisement]
    simp only [hloop, Option.bind_eq_bind, Option.bind_some, hu]
  · have hall := (hphase.trans htold).trans htold'
    rwa [List.append_nil, List.append_nil] at hall

end Sh2

/-! ### A run -/

namespace Sh2

variable {s t u : Sh2} {cs : List Call}

/-- The command channel is called with an advertisement. -/
theorem Called.told {adv : Advertisement} {time : UInt32}
    (happ : s.shtp.appListener = advertListeners)
    (h : s.Called t (some ⟨.shtpCmdListener, adv.bytes, time⟩)) :
    Told adv.declared adv.tables s t := by
  obtain ⟨v, w, hw, (hmessage : v.message = adv.bytes), (hcursor : v.inCursor = adv.bytes.length),
    -, ht, hv, hu⟩ := h
  have hbytes : v.inPayload.elems.drop 0 = adv.bytes ++ v.inPayload.elems.drop v.inCursor := by
    rw [← hmessage, Shtp.message, List.take_append_drop, List.drop_zero]
  obtain ⟨w', hw', htold⟩ := shtpCmdListener_advert
    (s := { s with
      shtp := v
      calls := s.calls ++ [⟨.shtpCmdListener, v.message, v.inTimestamp⟩] })
    (hv.appListener.trans happ) hbytes
  have hcall : some w' = some w := by rw [← hw', ← hw, call, hcursor]
  obtain rfl := Option.some.inj hcall
  have hlast : Told [] [] w' t := by
    rw [ht]
    exact .of_shtp hu
  have htold' : Told adv.declared adv.tables { s with shtp := v } w' :=
    ⟨htold.named, htold.appListener, htold.report, htold.notes, htold.sensorCallback,
      htold.lastHostInt, htold.rollovers⟩
  have hall := ((Told.of_shtp hv).trans htold').trans hlast
  rwa [List.nil_append, List.nil_append, List.append_nil, List.append_nil] at hall

/-- Nothing is called. -/
theorem CalledAll.told_nil (h : s.CalledAll cs u) (hcs : cs = []) : Told [] [] s u := by
  induction h with
  | refl s => exact .refl s
  | unheard h _ ih => exact (Told.of_unheard h).trans (ih hcs)
  | @called s t u c cs h _ ih =>
    obtain ⟨hc, hcs⟩ := List.append_eq_nil_iff.mp hcs
    obtain rfl : c = none := Option.toList_eq_nil_iff.mp hc
    have htold : Told [] [] s t := by
      rw [h.1]
      exact .of_shtp h.2
    exact htold.trans (ih hcs)

/-- Only the command channel is called, with an advertisement. -/
theorem CalledAll.told {adv : Advertisement} {time : UInt32}
    (happ : s.shtp.appListener = advertListeners) (h : s.CalledAll cs u)
    (hcs : cs = [⟨.shtpCmdListener, adv.bytes, time⟩]) : Told adv.declared adv.tables s u := by
  induction h with
  | refl s => cases hcs
  | unheard h _ ih =>
    have htold := Told.of_unheard h
    exact htold.trans (ih (htold.appListener.trans happ) hcs)
  | @called s t u c cs h hrest ih =>
    cases c with
    | none =>
      have htold : Told [] [] s t := by
        rw [h.1]
        exact .of_shtp h.2
      exact htold.trans (ih (htold.appListener.trans happ) hcs)
    | some c =>
      obtain ⟨hc, hnil⟩ := List.cons.inj hcs
      have hall := ((hc ▸ h).told happ).trans (hrest.told_nil hnil)
      rwa [List.append_nil, List.append_nil] at hall

/-- The functions of the other channels name no channel. -/
theorem CalledAll.agrees (h : s.CalledAll cs u) (hcs : ∀ c ∈ cs, c.callback ≠ .shtpCmdListener) :
    s.shtp.Agrees u.shtp := by
  induction h with
  | refl s => exact .refl _
  | unheard h _ ih =>
    have htold := Told.of_unheard h
    exact Shtp.Agrees.trans ⟨funext htold.named, htold.appListener⟩ (ih hcs)
  | @called s t u c cs h _ ih =>
    have hrest := ih fun c hc => hcs c (List.mem_append_right _ hc)
    cases c with
    | none => exact h.2.trans hrest
    | some c =>
      obtain ⟨v, w, hw, -, -, -, -, hv, hu⟩ := h
      rw [call_shtp (hcs c List.mem_cons_self) hw] at hu
      exact (hv.trans hu).trans hrest

end Sh2

/-- The function that is registered for the guid and the name of a channel. -/
def registered (x : UInt32 × List UInt8) : Option Callback :=
  Shtp.listenerOf listeners { guid := x.1, chanName := x.2 }

theorem Sh2.Ok.callback {s : Sh2} (h : s.Ok) (c : Fin 8) :
    (s.shtp.chan c).callback = registered (s.shtp.named c) := by
  rw [h.routed c, h.chanListener]
  rfl

/-- What the tables say: the guids and the names of the channels, and the lengths of the reports. -/
structure Tables where
  named : Fin 8 → UInt32 × List UInt8
  report : Buffer maxReportIds (UInt8 × UInt8)

/-- What they say behind an advertisement. -/
def Tables.tell (adv : Advertisement) (x : Tables) : Tables where
  named := fun c => namedBy adv.declared c (x.named c)
  report := adv.tables.foldl storeLengths x.report

def Sh2.tables (s : Sh2) : Tables := ⟨s.shtp.named, s.report⟩

theorem Told.tables {s t : Sh2} {adv : Advertisement} (h : Told adv.declared adv.tables s t) :
    t.tables = s.tables.tell adv := by
  have hnamed : t.shtp.named = fun c => namedBy adv.declared c (s.shtp.named c) := funext h.named
  rw [Sh2.tables, hnamed, h.report]
  rfl

/-- What the hub sends behind a reset: an advertisement, and the messages behind it. -/
structure Session where
  advert : Message
  adv : Advertisement
  bytes_eq : advert.bytes = adv.bytes
  messages : List Message

def Session.transfers (y : Session) : List (List UInt8 × UInt32) :=
  y.advert.transfers ++ y.messages.flatMap Message.transfers

/-- The driver is to hear of `ns` in the sessions, when the tables say `x` before them. The clock is
that of `s`. -/
inductive Talks (s : Sh2) : Tables → List Session → List HubNote → Prop
  | nil (x : Tables) : Talks s x [] []
  | cons {x : Tables} {y : Session} {ys : List Session} {ns : List HubNote}
      {route : Fin 8 → Callback} {heard : Message → List HubNote}
      (hadvert : y.advert.chan.val < listeners.length ∧
        registered (x.named y.advert.chan) = some .shtpCmdListener)
      (hroute : ∀ m ∈ y.messages, m.chan.val < listeners.length ∧
        registered ((x.tell y.adv).named m.chan) = some (route m.chan) ∧
        route m.chan ≠ .shtpCmdListener)
      (htime : ∀ m ∈ y.messages, m.first.2 = s.lastHostInt)
      (hmeans : ∀ m ∈ y.messages, Means { s with report := (x.tell y.adv).report } s.lastHostInt
        (route m.chan) m.bytes (heard m))
      (h : Talks s (x.tell y.adv) ys ns) : Talks s x (y :: ys) (y.messages.flatMap heard ++ ns)

namespace Client

variable {k l : Client}

theorem Reachable.run {as : List Act} (hk : k.Reachable) (h : Machine.run step k as = some l) :
    l.Reachable := by
  obtain ⟨bs, hbs⟩ := hk
  exact ⟨bs ++ as, by rw [Machine.run_append, hbs, Option.bind_some, h]⟩

/-- Behind an advertisement the tables say what it says. -/
theorem told_of_advert {as : List Act} {m : Message} {adv : Advertisement} (hk : k.Reachable)
    (hchan : m.chan.val < listeners.length)
    (hcb : (k.sh2.shtp.chan m.chan).callback = some .shtpCmdListener)
    (hbytes : m.bytes = adv.bytes) (hm : as.filterMap Act.received = m.transfers)
    (h : Machine.run step k as = some l) : Told adv.declared adv.tables k.sh2 l.sh2 := by
  let route : Fin 8 → Callback := fun _ => .shtpCmdListener
  have hms : as.filterMap Act.received = [m].flatMap Message.transfers := by
    rw [hm, List.flatMap_singleton]
  have hroute : ∀ m' ∈ [m], m'.chan.val < listeners.length ∧
      (k.sh2.shtp.chan m'.chan).callback = some (route m'.chan) := by
    simp only [List.mem_singleton, forall_eq]
    exact ⟨hchan, hcb⟩
  have hcalled := called_of_messages hk hms hroute (fun m' hm' => by cases hm') h
  rw [List.map_singleton, hbytes] at hcalled
  exact hcalled.told hk.ok.appListener rfl

/-- **Behind an advertisement each channel has the function for its name**, and the reports have the
lengths that it gives: however the advertisement is cut, and whatever is being sent. -/
theorem advertised {as : List Act} {m : Message} {adv : Advertisement} (hk : k.Reachable)
    (hchan : m.chan.val < listeners.length)
    (hcb : (k.sh2.shtp.chan m.chan).callback = some .shtpCmdListener)
    (hbytes : m.bytes = adv.bytes) (hm : as.filterMap Act.received = m.transfers)
    (h : Machine.run step k as = some l) :
    (∀ c, (l.sh2.shtp.chan c).callback =
      registered (namedBy adv.declared c (k.sh2.shtp.named c))) ∧
      l.sh2.report = adv.tables.foldl storeLengths k.sh2.report := by
  have htold := told_of_advert hk hchan hcb hbytes hm h
  exact ⟨fun c => by rw [(hk.run h).ok.callback, htold.named], htold.report⟩

/-- The channel `inputNormal` has the number `c`, and the reports `0xFB` and `0x05` have these
lengths. -/
def inputAdvert (c : Fin 8) : Advertisement where
  apps := [⟨2, [.channel false (UInt8.ofNat c) ⟨bytes "inputNormal", by decide, by decide⟩,
    .reportLengths [(0xFB, 5), (0x05, 14)] (by decide)]⟩]

theorem length_inputAdvert : ∀ c, (inputAdvert c).bytes.length = 30 := by decide +kernel

/-- The hub says so, in two transfers, and sends a rotation vector. -/
def inputNormal (c : Fin 8) : Session where
  advert :=
    { chan := ⟨0, by decide⟩
      seq := 0
      first := ((inputAdvert c).bytes.take 9, 0)
      rest := [((inputAdvert c).bytes.drop 9, 0)]
      rest_ne_nil := by simp [length_inputAdvert]
      fits := by simp [length_inputAdvert, hdrLen, maxIn] }
  adv := inputAdvert c
  bytes_eq := by simp [Message.bytes]
  messages := [⟨c, 9, ([0xFB, 5, 0], 0), [([0, 0] ++ halfQuaternion.bytes, 0)], by decide,
    by decide⟩]

/-- The client behind the registration of the sensor callback. -/
def listening : Client := { sh2 := { sh2Open with sensorCallback := true } }

theorem reachable_listening : listening.Reachable := ⟨[.setSensorCallback], rfl⟩

theorem advertised_inputNormal : ∃ l : Client,
    Machine.run step listening
      ((inputNormal 3).advert.transfers.map fun x => .service x.1 x.2) = some l ∧
    (l.sh2.shtp.chan 3).callback = some .sensorhubInputNormalHdlr := by
  obtain ⟨l, hl⟩ := Option.isSome_iff_exists.mp (show (Machine.run step listening
    ((inputNormal 3).advert.transfers.map fun x => .service x.1 x.2)).isSome by
      decide +kernel)
  obtain ⟨hcb, -⟩ := advertised reachable_listening
    (by decide) (by decide +kernel) (inputNormal 3).bytes_eq rfl hl
  exact ⟨l, hl, by rw [hcb]; decide +kernel⟩

/-- What one session leaves for the next ones. -/
theorem hears_of_talks {s : Sh2} {x : Tables} {ys : List Session} {ns : List HubNote}
    (htalks : Talks s x ys ns) {as : List Act} (hk : k.Reachable) (hx : k.sh2.tables = x)
    (hsensor : k.sh2.sensorCallback = true) (hclock : k.sh2.lastHostInt = s.lastHostInt)
    (hrollovers : k.sh2.rollovers = s.rollovers)
    (hys : as.filterMap Act.received = ys.flatMap Session.transfers)
    (h : Machine.run step k as = some l) : l.sh2.notes = k.sh2.notes ++ ns := by
  induction htalks generalizing k as with
  | nil x =>
    let route : Fin 8 → Callback := fun _ => .shtpCmdListener
    have hroute : ∀ m ∈ ([] : List Message), m.chan.val < listeners.length ∧
        (k.sh2.shtp.chan m.chan).callback = some (route m.chan) := fun m hm => by cases hm
    have hcalled := called_of_messages hk hys hroute (fun m hm => by cases hm) h
    rw [(hcalled.told_nil rfl).notes, List.append_nil]
  | @cons x y ys ns route heard hadvert hroute htime hmeans _ ih =>
    obtain ⟨as, ds, rfl, has, hds⟩ := List.filterMap_eq_append_iff.mp hys
    obtain ⟨bs, cs, rfl, hbs, hcs⟩ := List.filterMap_eq_append_iff.mp has
    rw [Machine.run_append] at h
    obtain ⟨k₂, h₂, h⟩ := Option.bind_eq_some_iff.mp h
    rw [Machine.run_append] at h₂
    obtain ⟨k₁, h₁, h₂⟩ := Option.bind_eq_some_iff.mp h₂
    -- The advertisement.
    have hcb : (k.sh2.shtp.chan y.advert.chan).callback = some .shtpCmdListener := by
      rw [hk.ok.callback, ← hadvert.2, ← hx]
      rfl
    have htold := told_of_advert hk hadvert.1 hcb y.bytes_eq hbs h₁
    have hk₁ := hk.run h₁
    have htables : k₁.sh2.tables = x.tell y.adv := by rw [htold.tables, hx]
    have hclock₁ := htold.lastHostInt.trans hclock
    have hrollovers₁ := htold.rollovers.trans hrollovers
    -- The messages behind it.
    have hroute₁ : ∀ m ∈ y.messages, m.chan.val < listeners.length ∧
        (k₁.sh2.shtp.chan m.chan).callback = some (route m.chan) ∧
        route m.chan ≠ .shtpCmdListener := by
      intro m hm
      obtain ⟨hlt, hcb, hne⟩ := hroute m hm
      refine ⟨hlt, ?_, hne⟩
      rw [hk₁.ok.callback, ← hcb, ← htables]
      rfl
    obtain ⟨hcalled, hheard⟩ := hears_of_messages hk₁ hcs hroute₁ (htold.sensorCallback hsensor)
      (fun m hm => (htime m hm).trans hclock₁.symm)
      (fun m hm => by
        rw [hclock₁]
        exact (hmeans m hm).congr (congrArg Tables.report htables) hrollovers₁) h₂
    have hagrees := hcalled.agrees fun c hc => by
      obtain ⟨m, hm, rfl⟩ := List.mem_map.mp hc
      exact (hroute m hm).2.2
    have htables₂ : k₂.sh2.tables = x.tell y.adv := by
      rw [← htables, Sh2.tables, Sh2.tables, hagrees.named, hheard.report]
    -- The other sessions.
    rw [ih (hk₁.run h₂) htables₂ (hheard.sensorCallback (htold.sensorCallback hsensor))
      (hheard.lastHostInt.trans hclock₁) (hheard.rollovers.trans hrollovers₁) hds h, hheard.notes,
      htold.notes, List.append_assoc]

/-- **The driver hears of the reports of the hub, through any number of resets**: in each session
the channels and the lengths of the reports are those of its advertisement. -/
theorem sessions_delivered {as : List Act} {ys : List Session} {ns : List HubNote}
    (hk : k.Reachable) (hsensor : k.sh2.sensorCallback = true)
    (htalks : Talks k.sh2 k.sh2.tables ys ns)
    (hys : as.filterMap Act.received = ys.flatMap Session.transfers)
    (h : Machine.run step k as = some l) : l.sh2.notes = k.sh2.notes ++ ns :=
  hears_of_talks htalks hk rfl hsensor rfl rfl hys h

/-- The hub starts again, and gives the channel another number. -/
theorem sessions_delivered_restart : ∃ l : Client,
    Machine.run step listening
      (([inputNormal 3, inputNormal 4].flatMap Session.transfers).map
        fun x => .service x.1 x.2) = some l ∧
    l.sh2.notes = listening.sh2.notes ++
      ((eventsOf 0 0 0 [.base 5, .sensor halfQuaternion]).map .sensor ++
        ((eventsOf 0 0 0 [.base 5, .sensor halfQuaternion]).map .sensor ++ [])) := by
  obtain ⟨l, hl⟩ := Option.isSome_iff_exists.mp (show (Machine.run step listening
    (([inputNormal 3, inputNormal 4].flatMap Session.transfers).map
      fun x => .service x.1 x.2)).isSome by decide +kernel)
  let heard : List HubNote := (eventsOf 0 0 0 [.base 5, .sensor halfQuaternion]).map .sensor
  have hsession {x : Tables} {c : Fin 8} {ys : List Session} {ns : List HubNote}
      (hc : c.val < listeners.length)
      (hadvert : registered (x.named ⟨0, by decide⟩) = some .shtpCmdListener)
      (hroute : registered ((x.tell (inputNormal c).adv).named c) = some .sensorhubInputNormalHdlr)
      (hlen : Sh2.getReportLen { listening.sh2 with report := (x.tell (inputNormal c).adv).report }
        0xFB = 5 ∧
        Sh2.getReportLen { listening.sh2 with report := (x.tell (inputNormal c).adv).report }
          0x05 = 14)
      (h : Talks listening.sh2 (x.tell (inputNormal c).adv) ys ns) :
      Talks listening.sh2 x (inputNormal c :: ys) (heard ++ ns) := by
    have hready : (inputNormal c).advert.chan.val < listeners.length ∧
        registered (x.named (inputNormal c).advert.chan) = some .shtpCmdListener :=
      ⟨Nat.le_of_ble_eq_true rfl, hadvert⟩
    -- The session has one message behind its advertisement.
    refine @Talks.cons _ _ _ _ _ (fun _ => .sensorhubInputNormalHdlr) (fun _ => heard) hready
      (fun m hm => ?_) (fun m hm => ?_) (fun m hm => ?_) h
    · obtain rfl := List.mem_singleton.mp hm
      exact ⟨hc, hroute, by decide⟩
    · obtain rfl := List.mem_singleton.mp hm
      rfl
    · obtain rfl := List.mem_singleton.mp hm
      exact means_half hlen.1 hlen.2 rfl
  have htalks : Talks listening.sh2 listening.sh2.tables
      [inputNormal 3, inputNormal 4] (heard ++ (heard ++ [])) :=
    hsession (by decide) (by decide +kernel) (by decide +kernel)
      ⟨by decide +kernel, by decide +kernel⟩ (hsession (by decide) (by decide +kernel)
        (by decide +kernel) ⟨by decide +kernel, by decide +kernel⟩ (.nil _))
  exact ⟨l, hl, sessions_delivered reachable_listening rfl htalks rfl hl⟩

end Client

end PicoUros.Imu
