import PicoUros.Lib.CString
import Mathlib.Algebra.Ring.Nat
import Mathlib.Data.List.Flatten

/-!
# Tokens and fields of a copied string

A parser that copies the first bytes of a line into a buffer and runs `strtok_r` over the buffer
numbers the tokens of the buffer, which are its nonempty fields. A format numbers all fields of the
line. This file says exactly when the token and the field of one number are the same piece of the
line.

## Main definitions

* `fieldAt`: the field of a number, when it has a text.
* `InPlace`: the condition under which the token of that number is this field.

## Main results

* `map_text_fields_intercalate`: the fields of a string are the pieces it was put together from.
* `fields_take`: the fields of a prefix, except for a cut in the last one, are fields of the string.
* `getElem?_filter_fields_take_iff`: the exact condition.
-/

namespace PicoUros

variable {sep : UInt8}

/-- Field number `k` of a string, counted from `0`; `none` if it is empty or does not exist. -/
def fieldAt (sep : UInt8) (s : List UInt8) (k : ℕ) : Option Token :=
  ((fields sep s)[k]?).filter Token.nonempty

/-- If field number `k` has a text, then it ends within the first `m` bytes and no field in front
of it is empty. Otherwise the first `m` bytes have at most `k` nonempty fields. -/
def InPlace (sep : UInt8) (m : ℕ) (s : List UInt8) (k : ℕ) : Prop :=
  match fieldAt sep s k with
  | some t => (∀ f ∈ (fields sep s).take k, f.nonempty) ∧ t.pos + t.text.length ≤ m
  | none => ((fields sep (s.take m)).filter Token.nonempty).length ≤ k

instance (m : ℕ) (s : List UInt8) (k : ℕ) : Decidable (InPlace sep m s k) := by
  unfold InPlace
  cases fieldAt sep s k <;> infer_instance

/-! ### Texts -/

theorem map_text_place (pos : ℕ) (l : List (List UInt8)) : (place pos l).map Token.text = l := by
  induction l generalizing pos with
  | nil => rfl
  | cons t l ih => rw [place, List.map_cons, ih]

/-- The texts of the fields of a string that was put together from pieces without a separator. -/
theorem map_text_fields_intercalate {l : List (List UInt8)} (hsep : ∀ t ∈ l, sep ∉ t)
    (hne : l ≠ []) : (fields sep ([sep].intercalate l)).map Token.text = l := by
  rw [fields, List.splitOn_intercalate sep hsep hne, map_text_place]

theorem mem_intercalate {b : UInt8} {l : List (List UInt8)} (h : b ∈ [sep].intercalate l) :
    b = sep ∨ ∃ t ∈ l, b ∈ t := by
  induction l with
  | nil => exact absurd h List.not_mem_nil
  | cons t l ih =>
    rcases eq_or_ne l [] with rfl | hne
    · rw [List.intercalate_singleton] at h
      exact .inr ⟨t, List.mem_cons_self, h⟩
    · rw [List.intercalate_cons_of_ne_nil hne, List.append_assoc] at h
      rcases List.mem_append.mp h with h | h
      · exact .inr ⟨t, List.mem_cons_self, h⟩
      · rcases List.mem_cons.mp h with h | h
        · exact .inl h
        · exact (ih h).imp_right fun ⟨u, hu, hb⟩ => ⟨u, List.mem_cons_of_mem _ hu, hb⟩

/-! ### Fields of a prefix -/

theorem splitOn_append {s t : List UInt8} {i : List (List UInt8)} {last hd : List UInt8}
    {tl : List (List UInt8)} (hs : s.splitOn sep = i ++ [last])
    (ht : t.splitOn sep = hd :: tl) :
    (s ++ t).splitOn sep = i ++ (last ++ hd) :: tl := by
  induction s generalizing i last with
  | nil =>
    obtain ⟨rfl, h⟩ := List.append_eq_singleton_iff.mp hs.symm |>.resolve_right (by simp)
    cases h
    exact ht
  | cons b s ih =>
    obtain ⟨h, r, hr⟩ := List.exists_cons_of_ne_nil (List.splitOn_ne_nil sep s)
    rw [List.splitOn_cons_eq_if_modifyHead] at hs
    rw [List.cons_append, List.splitOn_cons_eq_if_modifyHead]
    by_cases hb : b == sep
    · rw [if_pos hb] at hs ⊢
      cases i with
      | nil => simp [List.splitOn_ne_nil] at hs
      | cons f i =>
        obtain ⟨rfl, hi⟩ := List.cons.inj hs
        rw [ih hi]
        rfl
    · rw [if_neg hb, hr, List.modifyHead_cons] at hs
      rw [if_neg hb]
      cases i with
      | nil =>
        obtain ⟨rfl, rfl⟩ := List.cons.inj hs
        rw [ih (i := []) hr]
        rfl
      | cons f i =>
        obtain ⟨rfl, rfl⟩ := List.cons.inj hs
        rw [ih (i := h :: i) hr]
        rfl

theorem place_append (pos : ℕ) (l l' : List (List UInt8)) :
    place pos (l ++ l') =
      place pos l ++ place (pos + (l.map fun t => t.length + 1).sum) l' := by
  induction l generalizing pos with
  | nil => rfl
  | cons t l ih =>
    rw [List.cons_append, place, place, ih, List.map_cons, List.sum_cons, List.cons_append]
    rw [show pos + t.length + 1 + (l.map fun t => t.length + 1).sum =
      pos + (t.length + 1 + (l.map fun t => t.length + 1).sum) by omega]

theorem le_pos_of_mem_place {pos : ℕ} {l : List (List UInt8)} {t : Token}
    (ht : t ∈ place pos l) : pos ≤ t.pos := by
  induction l generalizing pos with
  | nil => cases ht
  | cons u l ih =>
    rcases List.mem_cons.mp ht with rfl | ht
    · exact le_rfl
    · have := ih ht
      omega

theorem end_le_of_mem_place {pos : ℕ} {l : List (List UInt8)} {t : Token} (ht : t ∈ place pos l) :
    t.pos + t.text.length + 1 ≤ pos + (l.map fun t => t.length + 1).sum := by
  induction l generalizing pos with
  | nil => cases ht
  | cons u l ih =>
    rw [List.map_cons, List.sum_cons]
    rcases List.mem_cons.mp ht with rfl | ht
    · dsimp only
      omega
    · have := ih ht
      omega

/-- Fields start at increasing positions. -/
theorem pairwise_place (pos : ℕ) (l : List (List UInt8)) :
    (place pos l).Pairwise fun t u => t.pos < u.pos := by
  induction l generalizing pos with
  | nil => exact List.Pairwise.nil
  | cons u l ih =>
    refine List.Pairwise.cons (fun t ht => ?_) (ih _)
    have := le_pos_of_mem_place ht
    dsimp only
    omega

/-- Every field takes its own bytes and one separator, except that the last one takes none. -/
theorem sum_length_splitOn (sep : UInt8) (s : List UInt8) :
    ((s.splitOn sep).map fun t => t.length + 1).sum = s.length + 1 := by
  induction s with
  | nil => rfl
  | cons b s ih =>
    rw [List.splitOn_cons_eq_if_modifyHead]
    split_ifs
    · rw [List.map_cons, List.sum_cons, ih, List.length_cons, List.length_nil]
      omega
    · obtain ⟨h, r, hr⟩ := List.exists_cons_of_ne_nil (List.splitOn_ne_nil sep s)
      rw [hr, List.map_cons, List.sum_cons] at ih
      rw [hr, List.modifyHead_cons, List.map_cons, List.sum_cons, List.length_cons,
        List.length_cons]
      omega

/-- A field ends within the string. -/
theorem end_le_of_mem_fields {s : List UInt8} {t : Token} (ht : t ∈ fields sep s) :
    t.pos + t.text.length ≤ s.length := by
  have hsum := sum_length_splitOn sep s
  have hend := end_le_of_mem_place ht
  omega

/-- **The fields of a prefix.** All but the last one are fields of the string, and the last one is
the first part of a field. -/
theorem fields_take (sep : UInt8) (s : List UInt8) {m : ℕ} (hm : m ≤ s.length) :
    ∃ (P : List Token) (q : ℕ) (last hd : List UInt8) (R : List Token),
      fields sep (s.take m) = P ++ [⟨q, last⟩] ∧ fields sep s = P ++ ⟨q, last ++ hd⟩ :: R ∧
      q + last.length = m ∧ (∀ t ∈ R, m < t.pos) := by
  have hne := List.splitOn_ne_nil sep (s.take m)
  obtain ⟨hd, tl, htl⟩ := List.exists_cons_of_ne_nil (List.splitOn_ne_nil sep (s.drop m))
  have hinit := (List.dropLast_concat_getLast hne).symm
  have happ := splitOn_append hinit htl
  rw [List.take_append_drop] at happ
  have hlen := sum_length_splitOn sep (s.take m)
  rw [List.length_take, Nat.min_eq_left hm, hinit, List.map_append, List.sum_append,
    List.map_singleton, List.sum_singleton] at hlen
  refine ⟨_, _, _, hd, _, by rw [fields, hinit, place_append]; rfl,
    by rw [fields, happ, place_append]; rfl, by omega, fun t ht => ?_⟩
  have hpos := le_pos_of_mem_place ht
  rw [List.length_append] at hpos
  omega

/-- A field of the prefix has the start and the predecessors of the field of its number. -/
theorem exists_field_of_take {s : List UInt8} {m j : ℕ} (hm : m ≤ s.length) {t : Token}
    (ht : (fields sep (s.take m))[j]? = some t) :
    (∃ u, (fields sep s)[j]? = some u ∧ u.pos = t.pos) ∧
      (fields sep s).take j = (fields sep (s.take m)).take j := by
  obtain ⟨P, q, last, hd, R, hC, hF, -, -⟩ := fields_take sep s hm
  rw [hC] at ht ⊢
  rw [hF]
  have hj : j ≤ P.length := by
    have hlt := (List.getElem?_eq_some_iff.mp ht).1
    rw [List.length_append] at hlt
    exact Nat.le_of_lt_succ hlt
  refine ⟨?_, by rw [List.take_append_of_le_length hj, List.take_append_of_le_length hj]⟩
  rcases hj.lt_or_eq with hlt | rfl
  · rw [List.getElem?_append_left hlt] at ht ⊢
    exact ⟨t, ht, rfl⟩
  · rw [List.getElem?_concat_length] at ht
    cases ht
    exact ⟨⟨q, last ++ hd⟩, by rw [List.getElem?_append_right le_rfl, Nat.sub_self]; rfl, rfl⟩

/-- A field that ends within the prefix is a field of the prefix. -/
theorem getElem?_fields_take {s : List UInt8} {m k : ℕ} (hm : m ≤ s.length) {t : Token}
    (ht : (fields sep s)[k]? = some t) (hend : t.pos + t.text.length ≤ m) :
    (fields sep (s.take m))[k]? = some t := by
  obtain ⟨P, q, last, hd, R, hC, hF, hq, hR⟩ := fields_take sep s hm
  rw [hF] at ht
  rw [hC]
  rcases lt_trichotomy k P.length with hlt | rfl | hgt
  · rwa [List.getElem?_append_left hlt] at ht ⊢
  · rw [List.getElem?_append_right le_rfl, Nat.sub_self] at ht
    cases ht
    rw [List.length_append] at hend
    have hnil : hd = [] := List.eq_nil_of_length_eq_zero (by dsimp only at hend; omega)
    rw [List.getElem?_concat_length, hnil, List.append_nil]
  · obtain ⟨i, hi⟩ := Nat.exists_eq_add_of_lt hgt
    rw [List.getElem?_append_right hgt.le, show k - P.length = i + 1 by omega,
      List.getElem?_cons_succ] at ht
    have := hR t (List.mem_of_getElem? ht)
    omega

/-! ### The exact condition -/

/-- An element that a filter puts at index `k` was at index `k` or behind it, and at index `k` only
if the filter keeps everything in front. -/
theorem of_getElem?_filter {α : Type*} {p : α → Bool} {l : List α} {k : ℕ} {t : α}
    (h : (l.filter p)[k]? = some t) :
    ∃ j, k ≤ j ∧ l[j]? = some t ∧ (j = k → ∀ x ∈ l.take k, p x) := by
  induction l generalizing k with
  | nil => cases h
  | cons a l ih =>
    by_cases ha : p a
    · rw [List.filter_cons_of_pos ha] at h
      cases k with
      | zero =>
        cases h
        exact ⟨0, le_rfl, rfl, fun _ x hx => nomatch hx⟩
      | succ k =>
        obtain ⟨j, hkj, hj, hall⟩ := ih h
        refine ⟨j + 1, Nat.succ_le_succ hkj, hj, fun hjk x hx => ?_⟩
        rcases List.mem_cons.mp hx with rfl | hx
        · exact ha
        · exact hall (Nat.succ.inj hjk) x hx
    · rw [List.filter_cons_of_neg ha] at h
      obtain ⟨j, hkj, hj, -⟩ := ih h
      exact ⟨j + 1, by omega, hj, fun hjk => by omega⟩

theorem getElem?_filter_of_all {α : Type*} {p : α → Bool} {l : List α} {k : ℕ} {t : α}
    (ht : l[k]? = some t) (hpt : p t) (hall : ∀ x ∈ l.take k, p x) :
    (l.filter p)[k]? = some t := by
  induction l generalizing k with
  | nil => cases ht
  | cons a l ih =>
    cases k with
    | zero =>
      cases ht
      rw [List.filter_cons_of_pos hpt]
      rfl
    | succ k =>
      rw [List.filter_cons_of_pos (hall a List.mem_cons_self)]
      exact ih ht fun x hx => hall x (List.mem_cons_of_mem _ hx)

/-- Fields with the same start have the same number. -/
theorem eq_of_getElem?_fields {s : List UInt8} {j k : ℕ} {t u : Token}
    (ht : (fields sep s)[j]? = some t) (hu : (fields sep s)[k]? = some u) (h : t.pos = u.pos) :
    j = k := by
  obtain ⟨hj, rfl⟩ := List.getElem?_eq_some_iff.mp ht
  obtain ⟨hk, rfl⟩ := List.getElem?_eq_some_iff.mp hu
  have hpw := List.pairwise_iff_getElem.mp (pairwise_place 0 (s.splitOn sep))
  rcases lt_trichotomy j k with hlt | heq | hlt
  · exact absurd h (hpw j k hj hk hlt).ne
  · exact heq
  · exact absurd h (hpw k j hk hj hlt).ne'

/-- **The exact condition.** The nonempty field number `k` of the first `m` bytes is field number
`k` of the string, or both do not exist, if and only if that field is in place. -/
theorem getElem?_filter_fields_take_iff {s : List UInt8} {m : ℕ} (hm : m ≤ s.length) (k : ℕ) :
    ((fields sep (s.take m)).filter Token.nonempty)[k]? = fieldAt sep s k ↔
      InPlace sep m s k := by
  unfold InPlace
  cases hfield : fieldAt sep s k with
  | none => exact List.getElem?_eq_none_iff
  | some t =>
    obtain ⟨hk, hne⟩ := Option.filter_eq_some_iff.mp hfield
    constructor
    · intro htok
      obtain ⟨j, -, hj, hall⟩ := of_getElem?_filter htok
      obtain ⟨⟨u, hu, hpos⟩, htake⟩ := exists_field_of_take hm hj
      have hjk := eq_of_getElem?_fields hu hk hpos
      subst hjk
      have hend := end_le_of_mem_fields (List.mem_of_getElem? hj)
      rw [List.length_take] at hend
      exact ⟨fun f hf => hall rfl f (htake ▸ hf), hend.trans (Nat.min_le_left _ _)⟩
    · rintro ⟨hall, hend⟩
      have hj := getElem?_fields_take hm hk hend
      refine getElem?_filter_of_all hj hne fun f hf => hall f ?_
      rwa [(exists_field_of_take hm hj).2]

end PicoUros
