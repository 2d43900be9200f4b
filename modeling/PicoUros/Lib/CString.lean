import Mathlib.Data.List.TakeWhile

/-!
# C strings and their tokens

A C string is given by the bytes of the array that holds it, and ends before the first NUL. Here
are the string functions of the C library as functions on lists of bytes, and `strtok_r` together
with the loop that calls it until it returns `NULL`.

`strtok_r` skips any run of separators, so that it never returns an empty token. A format that
separates its fields by single characters counts empty fields too: these are `fields`. A token is
the position where it starts, which is the pointer that `strtok_r` returns, and its text.

## Main definitions

* `cstr`, `strncmpEq`, `strcmpEq`, `strncpy`, `strchr`: C strings.
* `strtokR`, `tokenLoop`: the tokenizer and its loop.
* `fields`: the fields of a string, empty ones included.

## Main results

* `tokenLoop_eq_foldl`: the loop folds its body over the nonempty fields, numbered without gaps.
* `tokenAt_eq`: under a field number the loop sees the nonempty field of that number.
-/

namespace PicoUros

/-! ### C strings -/

/-- The bytes of a string literal. -/
def bytes (s : String) : List UInt8 := s.toList.map Char.toUInt8

/-- The C string that starts at an array. -/
def cstr (s : List UInt8) : List UInt8 := s.takeWhile (· != 0)

/-- `strncmp(s, t, n) == 0`. -/
def strncmpEq (s t : List UInt8) (n : ℕ) : Bool := (cstr s).take n == (cstr t).take n

/-- `strcmp(s, t) == 0`. -/
def strcmpEq (s t : List UInt8) : Bool := cstr s == cstr t

/-- The C string in `buf` after `strncpy(buf, s, n); buf[n] = 0`. -/
def strncpy (s : List UInt8) (n : ℕ) : List UInt8 := (cstr s).take n

/-- `strchr(s, c)`: the rest of the string from the first `c` on. -/
def strchr (s : List UInt8) (c : UInt8) : Option (List UInt8) :=
  match (cstr s).dropWhile (· != c) with
  | [] => none
  | b :: t => some (b :: t)

/-! ### The tokenizer -/

/-- A piece of a string: where it starts, and its text. -/
structure Token where
  pos : ℕ
  text : List UInt8
  deriving DecidableEq

/-- `strtok_r` with a single separator, on the part of a string that starts at `pos`: skip
separators and return the token up to the next one, if any, with the position and the string
behind it. -/
def strtokR (sep : UInt8) (pos : ℕ) (s : List UInt8) : Option (Token × ℕ × List UInt8) :=
  match s.dropWhile (· == sep) with
  | [] => none
  | b :: t =>
    let start := pos + (s.takeWhile (· == sep)).length
    let text := (b :: t).takeWhile (· != sep)
    some (⟨start, text⟩, start + text.length + 1, (b :: t).drop (text.length + 1))

variable {σ : Type*}

/-- The loop `tok = strtok_r(s, …); while (tok) { body; tok = strtok_r(NULL, …); field++; }`, which
runs at most as often as `s` has bytes. -/
def tokenLoop (sep : UInt8) (body : ℕ → Token → σ → σ) :
    (fuel field pos : ℕ) → List UInt8 → σ → σ
  | 0, _, _, _, st => st
  | fuel + 1, field, pos, s, st =>
    match strtokR sep pos s with
    | none => st
    | some (tok, pos', s') => tokenLoop sep body fuel (field + 1) pos' s' (body field tok st)

/-- The loop over the tokens of a string, whose first token gets the number `field`. -/
def forTokens (sep : UInt8) (body : ℕ → Token → σ → σ) (field : ℕ) (s : List UInt8) (st : σ) : σ :=
  tokenLoop sep body (s.length + 1) field 0 s st

/-- The token that the loop sees under the number `n`. -/
def tokenAt (sep : UInt8) (field : ℕ) (s : List UInt8) (n : ℕ) : Option Token :=
  forTokens sep (fun k tok seen => if k = n then some tok else seen) field s none

/-! ### Fields -/

/-- Give each piece its position, when they stand one separator apart. -/
def place : ℕ → List (List UInt8) → List Token
  | _, [] => []
  | pos, t :: ts => ⟨pos, t⟩ :: place (pos + t.length + 1) ts

/-- The fields of a string: the pieces between separators, empty ones included. -/
def fields (sep : UInt8) (s : List UInt8) : List Token := place 0 (s.splitOn sep)

/-- A field that has a text. -/
def Token.nonempty (t : Token) : Bool := !t.text.isEmpty

/-! ### The loop sees the nonempty fields -/

theorem strtokR_sep (sep : UInt8) (pos : ℕ) (s : List UInt8) :
    strtokR sep pos (sep :: s) = strtokR sep (pos + 1) s := by
  rw [strtokR, strtokR, List.dropWhile_cons_of_pos (by simp)]
  cases s.dropWhile (· == sep) with
  | nil => rfl
  | cons b t =>
    simp only [List.takeWhile_cons, beq_self_eq_true, ↓reduceIte, List.length_cons]
    rw [show pos + ((s.takeWhile (· == sep)).length + 1) =
      pos + 1 + (s.takeWhile (· == sep)).length by omega]

/-- A string that does not start with a separator is a token, up to its end or to the next
separator. -/
theorem exists_token {sep b : UInt8} (hb : b ≠ sep) (s : List UInt8) :
    ∃ text tail, b :: s = text ++ tail ∧ text ≠ [] ∧ sep ∉ text ∧
      (tail = [] ∨ ∃ rest, tail = sep :: rest) := by
  refine ⟨(b :: s).takeWhile (· != sep), (b :: s).dropWhile (· != sep),
    List.takeWhile_append_dropWhile.symm, by simp [hb], fun h => ?_, ?_⟩
  · simpa using List.mem_takeWhile_imp h
  · cases hd : (b :: s).dropWhile (· != sep) with
    | nil => exact .inl rfl
    | cons c rest =>
      have hc : c = sep := by
        have hhead := List.head?_dropWhile_not (· != sep) (b :: s)
        simpa [hd] using hhead
      exact .inr ⟨rest, by rw [hc]⟩

theorem strtokR_token {sep : UInt8} {text tail : List UInt8} (pos : ℕ) (hne : text ≠ [])
    (hsep : sep ∉ text) (htail : tail = [] ∨ ∃ rest, tail = sep :: rest) :
    strtokR sep pos (text ++ tail) =
      some (⟨pos, text⟩, pos + text.length + 1, tail.drop 1) := by
  have htake : (text ++ tail).takeWhile (· != sep) = text := by
    rw [List.takeWhile_append_of_pos fun b hb => by
      simpa using ne_of_mem_of_not_mem hb hsep]
    rcases htail with rfl | ⟨rest, rfl⟩ <;> simp
  obtain ⟨b, t, rfl⟩ := List.exists_cons_of_ne_nil hne
  have hb : b ≠ sep := fun h => hsep (h ▸ List.mem_cons_self)
  rw [List.cons_append] at htake ⊢
  rw [strtokR, List.dropWhile_cons_of_neg (by simpa using hb),
    List.takeWhile_cons_of_neg (by simpa using hb)]
  simp only [htake, List.length_nil, Nat.add_zero, List.length_cons, Option.some.injEq,
    Prod.mk.injEq, true_and]
  rw [List.drop_succ_cons, ← List.drop_drop, List.drop_left]

theorem tokenLoop_nil (sep : UInt8) (body : ℕ → Token → σ → σ) (fuel field pos : ℕ) (st : σ) :
    tokenLoop sep body fuel field pos [] st = st := by
  cases fuel <;> rfl

/-- **The loop folds its body over the nonempty fields**, which get consecutive numbers. -/
theorem tokenLoop_eq_foldl (sep : UInt8) (body : ℕ → Token → σ → σ) (s : List UInt8) :
    ∀ {fuel : ℕ}, s.length < fuel → ∀ (field pos : ℕ) (st : σ),
      tokenLoop sep body fuel field pos s st =
        (((place pos (s.splitOn sep)).filter Token.nonempty).zipIdx field).foldl
          (fun st p => body p.2 p.1 st) st := by
  induction hn : s.length using Nat.strong_induction_on generalizing s with
  | _ n ih =>
  intro fuel hfuel field pos st
  cases s with
  | nil => rw [tokenLoop_nil]; rfl
  | cons b s =>
    obtain ⟨fuel, rfl⟩ := Nat.exists_eq_succ_of_ne_zero (Nat.ne_zero_of_lt hfuel)
    rw [List.length_cons] at hn
    by_cases hb : b = sep
    · -- A separator in front is skipped, as an empty field.
      subst hb
      have hlt : s.length < fuel + 1 := by omega
      have hih := ih s.length (by omega) s rfl hlt field (pos + 1) st
      rw [tokenLoop, strtokR_sep, ← tokenLoop, hih, List.splitOn_cons_eq_if_modifyHead,
        if_pos (beq_self_eq_true b)]
      rfl
    · obtain ⟨text, tail, heq, hne, hsep, htail⟩ := exists_token hb s
      have hlen := congrArg List.length heq
      have hpos := List.length_pos_iff.mpr hne
      rw [List.length_cons, List.length_append] at hlen
      have hnonempty : Token.nonempty ⟨pos, text⟩ = true := by simp [Token.nonempty, hne]
      rw [heq, tokenLoop, strtokR_token pos hne hsep htail]
      rcases htail with rfl | ⟨rest, rfl⟩
      · rw [List.append_nil, List.splitOn_eq_singleton hsep]
        simp [tokenLoop_nil, place, hnonempty]
      · rw [List.length_cons] at hlen
        rw [List.splitOn_append_cons_self_of_not_mem hsep]
        simp only [place, List.filter_cons_of_pos hnonempty, List.zipIdx_cons, List.foldl_cons]
        exact ih rest.length (by omega) rest rfl (by omega) (field + 1) _ _

/-- The loop over all tokens of a string. -/
theorem forTokens_eq_foldl (sep : UInt8) (body : ℕ → Token → σ → σ) (field : ℕ) (s : List UInt8)
    (st : σ) : forTokens sep body field s st =
      (((fields sep s).filter Token.nonempty).zipIdx field).foldl
        (fun st p => body p.2 p.1 st) st :=
  tokenLoop_eq_foldl sep body s (Nat.lt_succ_self _) field 0 st

/-! ### The token under a field number -/

theorem Token.nonempty_iff {t : Token} : t.nonempty ↔ t.text ≠ [] := by
  simp [Token.nonempty]

section Read

variable {β : Type*} {n : ℕ} {body : ℕ → Token → σ → σ} (get : σ → β) (upd : Token → β → β)

/-- A part of the loop's state that changes under the field number `n` only is not touched by
tokens with larger numbers. -/
private theorem foldl_of_lt
    (hbody : ∀ k tok st, tok.text ≠ [] →
      get (body k tok st) = if k = n then upd tok (get st) else get st) :
    ∀ (toks : List Token) {field : ℕ}, n < field → ∀ st : σ,
      get (((toks.filter Token.nonempty).zipIdx field).foldl (fun st p => body p.2 p.1 st) st) =
        get st
  | [], _, _, _ => rfl
  | t :: ts, field, hlt, st => by
    by_cases ht : t.nonempty
    · rw [List.filter_cons_of_pos ht, List.zipIdx_cons, List.foldl_cons,
        foldl_of_lt hbody ts (Nat.lt_succ_of_lt hlt), hbody _ _ _ (Token.nonempty_iff.mp ht),
        if_neg hlt.ne']
    · rw [List.filter_cons_of_neg ht, foldl_of_lt hbody ts hlt]

private theorem foldl_of_le
    (hbody : ∀ k tok st, tok.text ≠ [] →
      get (body k tok st) = if k = n then upd tok (get st) else get st) :
    ∀ (toks : List Token) {field : ℕ}, field ≤ n → ∀ st : σ,
      get (((toks.filter Token.nonempty).zipIdx field).foldl (fun st p => body p.2 p.1 st) st) =
        ((toks.filter Token.nonempty)[n - field]?).elim (get st) fun tok => upd tok (get st)
  | [], _, _, _ => rfl
  | t :: ts, field, hle, st => by
    by_cases ht : t.nonempty
    · rw [List.filter_cons_of_pos ht, List.zipIdx_cons, List.foldl_cons]
      rcases hle.eq_or_lt with rfl | hlt
      · rw [foldl_of_lt get upd hbody ts (Nat.lt_succ_self _),
          hbody _ _ _ (Token.nonempty_iff.mp ht), if_pos rfl, Nat.sub_self]
        rfl
      · rw [foldl_of_le hbody ts hlt, hbody _ _ _ (Token.nonempty_iff.mp ht), if_neg hlt.ne,
          show n - field = n - (field + 1) + 1 by omega, List.getElem?_cons_succ]
    · rw [List.filter_cons_of_neg ht, foldl_of_le hbody ts hle]

/-- Under the number `n` the loop sees the nonempty field of that number. -/
theorem tokenAt_eq (sep : UInt8) {field : ℕ} (hle : field ≤ n) (s : List UInt8) :
    tokenAt sep field s n = ((fields sep s).filter Token.nonempty)[n - field]? := by
  rw [tokenAt, forTokens_eq_foldl]
  refine (foldl_of_le id (fun tok _ => some tok) (fun _ _ _ _ => rfl) _ hle none).trans ?_
  cases ((fields sep s).filter Token.nonempty)[n - field]? <;> rfl

/-- A part of the loop's state that is set under the field number `n` only is determined by the
token that the loop sees under that number. -/
theorem get_forTokens (get : σ → β) (n : ℕ) (upd : Token → β → β)
    (hbody : ∀ k tok st, tok.text ≠ [] →
      get (body k tok st) = if k = n then upd tok (get st) else get st)
    (sep : UInt8) {field : ℕ} (hle : field ≤ n) (s : List UInt8) (st : σ) :
    get (forTokens sep body field s st) =
      (tokenAt sep field s n).elim (get st) fun tok => upd tok (get st) := by
  rw [tokenAt_eq sep hle, forTokens_eq_foldl, foldl_of_le get upd hbody _ hle]

end Read

end PicoUros
