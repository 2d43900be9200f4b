import Mathlib.Data.List.Chain
import Mathlib.Data.List.Infix

/-!
# Reassembly of payloads that are sent in pieces

A payload travels as a sequence of fragments. A fragment names a channel, carries a sequence
number, says whether it carries on a payload, and says how much of the payload is left behind it.
A receiver keeps the fragments of one payload. It drops them when a fragment arrives that does not
carry them on, and completes the payload with a fragment that leaves nothing.

* `Fragment.Continues next f g`: `g` carries on the payload that `f` belongs to, `next` being the
  successor of a sequence number.
* `Fragment.Partial`, `Fragment.Complete`: the fragments of a payload so far, and all of them.
* `push`, `assemble`: the receiver, for one fragment and for a list of them. A payload is started
  only with a fragment that `ok` admits.
* `Blocks gs l`: the lists `gs` are blocks of `l`, one behind the other.

## Main results

* `assemble_blocks`: **whatever the fragments are, a completed payload is a block of the fragments
  received**, these blocks do not overlap, and each of them is the whole of one payload.
* `assemble_flatten`: the fragments of payloads that are sent one behind the other complete them.
-/

namespace PicoUros

/-! ### Blocks of a list -/

/-- The lists are blocks of `l`, one behind the other. -/
def Blocks {α : Type*} : List (List α) → List α → Prop
  | [], _ => True
  | g :: gs, l => ∃ pre post, l = pre ++ (g ++ post) ∧ Blocks gs post

namespace Blocks

variable {α β : Type*} {gs : List (List α)} {g l l' : List α}

theorem prepend (h : Blocks gs l) (pre : List α) : Blocks gs (pre ++ l) := by
  cases gs with
  | nil => trivial
  | cons g gs =>
    obtain ⟨pre', post, rfl, h⟩ := h
    exact ⟨pre ++ pre', post, (List.append_assoc _ _ _).symm, h⟩

theorem sublist {gs' : List (List α)} (hgs : gs'.Sublist gs) (h : Blocks gs l) : Blocks gs' l := by
  induction hgs generalizing l with
  | slnil => trivial
  | cons g hgs ih =>
    obtain ⟨pre, post, rfl, h⟩ := h
    rw [← List.append_assoc]
    exact (ih h).prepend _
  | cons_cons g hgs ih =>
    obtain ⟨pre, post, rfl, h⟩ := h
    exact ⟨pre, post, rfl, ih h⟩

theorem block (h : Blocks gs l) (g : List α) : Blocks (g :: gs) (g ++ l) := ⟨[], l, rfl, h⟩

theorem isInfix (h : Blocks gs l) (hg : g ∈ gs) : g <:+: l := by
  induction gs generalizing l with
  | nil => cases hg
  | cons g' gs ih =>
    obtain ⟨pre, post, rfl, h⟩ := h
    rcases List.mem_cons.mp hg with rfl | hg
    · exact ⟨pre, post, List.append_assoc _ _ _⟩
    · have hpost : post <:+: pre ++ (g' ++ post) := ⟨pre ++ g', [], by simp⟩
      exact (ih h hg).trans hpost

end Blocks

/-! ### Fragments -/

/-- A piece of a payload. -/
structure Fragment (κ σ β : Type*) where
  chan : κ
  seq : σ
  continuation : Bool
  /-- How much of the payload is left behind this piece. -/
  left : ℕ
  data : β

namespace Fragment

variable {κ σ β : Type*} {next : σ → σ}

/-- `g` carries on the payload that `f` belongs to. -/
structure Continues (next : σ → σ) (f g : Fragment κ σ β) : Prop where
  left : f.left ≠ 0
  continuation : g.continuation = true
  chan : g.chan = f.chan
  seq : g.seq = next f.seq

instance [DecidableEq κ] [DecidableEq σ] (f g : Fragment κ σ β) : Decidable (Continues next f g) :=
  decidable_of_iff
    (f.left ≠ 0 ∧ g.continuation = true ∧ g.chan = f.chan ∧ g.seq = next f.seq)
    ⟨fun h => ⟨h.1, h.2.1, h.2.2.1, h.2.2.2⟩, fun h => ⟨h.left, h.continuation, h.chan, h.seq⟩⟩

/-- The fragments `p` are those of a payload so far. -/
structure Partial (next : σ → σ) (ok : Fragment κ σ β → Prop) (p : List (Fragment κ σ β)) :
    Prop where
  chain : p.IsChain (Continues next)
  head : ∀ f ∈ p.head?, ok f
  last : ∀ f ∈ p.getLast?, f.left ≠ 0

/-- The fragments `p` are all those of a payload. -/
structure Complete (next : σ → σ) (ok : Fragment κ σ β → Prop) (p : List (Fragment κ σ β)) :
    Prop where
  chain : p.IsChain (Continues next)
  head : ∃ f ∈ p.head?, ok f
  last : ∃ f ∈ p.getLast?, f.left = 0

/-- `f` carries on the payload whose fragments so far are `p`. -/
def Joins (next : σ → σ) (p : List (Fragment κ σ β)) (f : Fragment κ σ β) : Prop :=
  ∃ g ∈ p.getLast?, Continues next g f

instance [DecidableEq κ] [DecidableEq σ] (p : List (Fragment κ σ β)) (f : Fragment κ σ β) :
    Decidable (Joins next p f) :=
  match h : p.getLast? with
  | none => isFalse fun ⟨_, hg, _⟩ => Option.some_ne_none _ (hg.symm.trans h)
  | some g =>
    decidable_of_iff (Continues next g f)
      ⟨fun hc => ⟨g, h, hc⟩, fun ⟨_, hg, hc⟩ => Option.some.inj (h.symm.trans hg) ▸ hc⟩

variable {ok : Fragment κ σ β → Prop} {p : List (Fragment κ σ β)} {f : Fragment κ σ β}

theorem partial_nil : Partial next ok [] := ⟨.nil, by simp, by simp⟩

theorem not_joins_nil : ¬ Joins next [] f := fun ⟨_, hg, _⟩ => Option.some_ne_none _ hg.symm

theorem Joins.ne_nil (h : Joins next p f) : p ≠ [] := by
  rintro rfl
  exact not_joins_nil h

/-- Each fragment of a payload but the last one leaves something. -/
theorem left_ne_zero_of_mem_dropLast (hp : p.IsChain (Continues next)) (hf : f ∈ p.dropLast) :
    f.left ≠ 0 := by
  induction p with
  | nil => cases hf
  | cons g p ih =>
    cases p with
    | nil => cases hf
    | cons e p =>
      obtain ⟨hge, hp⟩ := List.isChain_cons_cons.mp hp
      rcases List.mem_cons.mp hf with rfl | hf
      exacts [hge.left, ih hp hf]

theorem isChain_concat (hp : p.IsChain (Continues next)) (h : p = [] ∨ Joins next p f) :
    (p ++ [f]).IsChain (Continues next) := by
  refine List.isChain_append.mpr ⟨hp, .singleton f, fun g hg f' hf' => ?_⟩
  obtain rfl := Option.some.inj hf'
  rcases h with rfl | ⟨g', hg', hc⟩
  · cases hg
  · exact Option.some.inj (hg.symm.trans hg') ▸ hc

theorem head?_concat (h : p = [] → ok f) (hp : ∀ g ∈ p.head?, ok g) :
    ∀ g ∈ (p ++ [f]).head?, ok g := by
  cases p with
  | nil =>
    rintro g hg
    exact Option.some.inj hg ▸ h rfl
  | cons g p => exact hp

theorem partial_concat (hp : Partial next ok p) (hj : p = [] ∧ ok f ∨ Joins next p f)
    (hf : f.left ≠ 0) : Partial next ok (p ++ [f]) where
  chain := isChain_concat hp.chain (hj.imp_left And.left)
  head := head?_concat (fun h => hj.elim And.right fun hj => absurd h hj.ne_nil) hp.head
  last := by
    rw [List.getLast?_concat]
    exact fun g hg => Option.some.inj hg ▸ hf

theorem complete_concat (hp : Partial next ok p) (hj : p = [] ∧ ok f ∨ Joins next p f)
    (hf : f.left = 0) : Complete next ok (p ++ [f]) where
  chain := isChain_concat hp.chain (hj.imp_left And.left)
  head := by
    have hhead := head?_concat (fun h => hj.elim And.right fun hj => absurd h hj.ne_nil) hp.head
    cases hp' : (p ++ [f]).head? with
    | none => simp at hp'
    | some g => exact ⟨g, rfl, hhead g hp'⟩
  last := ⟨f, List.getLast?_concat, hf⟩

/-! ### The receiver -/

variable [DecidableEq κ] [DecidableEq σ] (next ok) [DecidablePred ok]

/-- One fragment arrives: the fragments that are kept, and the payload that is completed. -/
def push (p : List (Fragment κ σ β)) (f : Fragment κ σ β) :
    List (Fragment κ σ β) × List (List (Fragment κ σ β)) :=
  let q := if Joins next p f then p else []
  if q = [] ∧ ¬ ok f then ([], [])
  else if f.left = 0 then ([], [q ++ [f]])
  else (q ++ [f], [])

/-- A list of fragments arrives: the fragments that are kept, and the payloads completed. -/
def assemble : List (Fragment κ σ β) → List (Fragment κ σ β) →
    List (Fragment κ σ β) × List (List (Fragment κ σ β))
  | p, [] => (p, [])
  | p, f :: fs =>
    let (q, g) := push next ok p f
    let (r, gs) := assemble q fs
    (r, g ++ gs)

/-- What the receiver does with a fragment. -/
theorem push_cases (p : List (Fragment κ σ β)) (f : Fragment κ σ β) :
    (∃ q, (q = p ∧ Joins next p f ∨ q = [] ∧ ok f) ∧
      (f.left = 0 ∧ push next ok p f = ([], [q ++ [f]]) ∨
        f.left ≠ 0 ∧ push next ok p f = (q ++ [f], []))) ∨
      push next ok p f = ([], []) := by
  by_cases hj : Joins next p f
  · refine .inl ⟨p, .inl ⟨rfl, hj⟩, ?_⟩
    have hp := hj.ne_nil
    by_cases hf : f.left = 0
    · exact .inl ⟨hf, by simp [push, hj, hp, hf]⟩
    · exact .inr ⟨hf, by simp [push, hj, hp, hf]⟩
  · by_cases hok : ok f
    · refine .inl ⟨[], .inr ⟨rfl, hok⟩, ?_⟩
      by_cases hf : f.left = 0
      · exact .inl ⟨hf, by simp [push, hj, hok, hf]⟩
      · exact .inr ⟨hf, by simp [push, hj, hok, hf]⟩
    · exact .inr (by simp [push, hj, hok])

/-- What is under construction are the fragments received last. -/
theorem assemble_suffix (p fs : List (Fragment κ σ β)) :
    (assemble next ok p fs).1 <:+ p ++ fs := by
  induction fs generalizing p with
  | nil => exact ⟨[], by simp [assemble]⟩
  | cons f fs ih =>
    have hpush : (push next ok p f).1 <:+ p ++ [f] := by
      rcases push_cases next ok p f with ⟨q, hq, ⟨-, hpush⟩ | ⟨-, hpush⟩⟩ | hpush <;> rw [hpush]
      · exact List.nil_suffix
      · rcases hq with ⟨rfl, -⟩ | ⟨rfl, -⟩
        exacts [List.suffix_rfl, ⟨p, rfl⟩]
      · exact List.nil_suffix
    have happend : p ++ f :: fs = (p ++ [f]) ++ fs := by simp
    rw [happend]
    obtain ⟨pre, hpre⟩ := hpush
    have hsuffix : (push next ok p f).1 ++ fs <:+ (p ++ [f]) ++ fs :=
      ⟨pre, by rw [← hpre, List.append_assoc]⟩
    exact (ih _).trans hsuffix

/-- Nothing is under construction when every fragment is the last one of its payload. -/
theorem assemble_fst_eq_nil {fs : List (Fragment κ σ β)} (hfs : ∀ f ∈ fs, f.left = 0) :
    (assemble next ok [] fs).1 = [] := by
  induction fs with
  | nil => rfl
  | cons f fs ih =>
    have hpush : (push next ok [] f).1 = [] := by
      rcases push_cases next ok [] f with ⟨q, -, ⟨-, hpush⟩ | ⟨hf, -⟩⟩ | hpush
      · rw [hpush]
      · exact absurd (hfs f List.mem_cons_self) hf
      · rw [hpush]
    simp only [assemble, hpush]
    exact ih fun g hg => hfs g (List.mem_cons_of_mem f hg)

variable {next ok}

theorem push_of_joins {p : List (Fragment κ σ β)} {f : Fragment κ σ β} (hj : Joins next p f) :
    push next ok p f = if f.left = 0 then ([], [p ++ [f]]) else (p ++ [f], []) := by
  simp [push, hj, hj.ne_nil]

theorem push_of_new {p : List (Fragment κ σ β)} {f : Fragment κ σ β} (hj : ¬ Joins next p f)
    (hok : ok f) : push next ok p f = if f.left = 0 then ([], [[f]]) else ([f], []) := by
  simp [push, hj, hok]

/-- **A completed payload is a block of the fragments received.** -/
theorem assemble_blocks {p : List (Fragment κ σ β)} (hp : Partial next ok p)
    (fs : List (Fragment κ σ β)) :
    Partial next ok (assemble next ok p fs).1 ∧
      (∀ g ∈ (assemble next ok p fs).2, Complete next ok g) ∧
      Blocks ((assemble next ok p fs).2 ++ [(assemble next ok p fs).1]) (p ++ fs) := by
  induction fs generalizing p with
  | nil => exact ⟨hp, fun g hg => absurd hg List.not_mem_nil, ⟨[], [], by simp [assemble], trivial⟩⟩
  | cons f fs ih =>
    have hcons : p ++ f :: fs = (p ++ [f]) ++ fs := by simp
    rcases push_cases next ok p f with ⟨q, hq, hpush⟩ | hpush
    · -- The fragment goes behind `q`, which is a suffix of `p`.
      have hqp : Partial next ok q := by
        rcases hq with ⟨rfl, -⟩ | ⟨rfl, -⟩
        exacts [hp, partial_nil]
      have hjoin : q = [] ∧ ok f ∨ Joins next q f := by
        rcases hq with ⟨rfl, hj⟩ | hq
        exacts [.inr hj, .inl hq]
      obtain ⟨pre, hpre⟩ : ∃ pre, p = pre ++ q := by
        rcases hq with ⟨rfl, -⟩ | ⟨rfl, -⟩
        exacts [⟨[], rfl⟩, ⟨p, (List.append_nil p).symm⟩]
      have hsplit : p ++ f :: fs = pre ++ ((q ++ [f]) ++ fs) := by
        rw [hcons, hpre]
        simp only [List.append_assoc]
      rcases hpush with ⟨hf, hpush⟩ | ⟨hf, hpush⟩
      · obtain ⟨hpart, hcomplete, hblocks⟩ := ih partial_nil
        simp only [assemble, hpush, List.cons_append]
        refine ⟨hpart, fun g hg => ?_, ?_⟩
        · rcases List.mem_cons.mp hg with rfl | hg
          exacts [complete_concat hqp hjoin hf, hcomplete g hg]
        · rw [hsplit]
          exact (hblocks.block _).prepend pre
      · obtain ⟨hpart, hcomplete, hblocks⟩ := ih (partial_concat hqp hjoin hf)
        simp only [assemble, hpush, List.nil_append]
        rw [hsplit]
        exact ⟨hpart, hcomplete, hblocks.prepend pre⟩
    · obtain ⟨hpart, hcomplete, hblocks⟩ := ih partial_nil
      simp only [assemble, hpush, List.nil_append]
      rw [hcons]
      exact ⟨hpart, hcomplete, hblocks.prepend _⟩

/-- The rest of a payload completes it. -/
theorem assemble_rest {p c fs : List (Fragment κ σ β)} (hp : p ≠ []) (hc : c ≠ [])
    (hchain : (p ++ c).IsChain (Continues next)) (hlast : ∃ f ∈ c.getLast?, f.left = 0) :
    assemble next ok p (c ++ fs) =
      ((assemble next ok [] fs).1, (p ++ c) :: (assemble next ok [] fs).2) := by
  induction c generalizing p with
  | nil => exact absurd rfl hc
  | cons f c ih =>
    have hj : Joins next p f := by
      obtain ⟨-, -, hglue⟩ := List.isChain_append.mp hchain
      exact ⟨p.getLast hp, List.getLast?_eq_some_getLast hp,
        hglue _ (List.getLast?_eq_some_getLast hp) f rfl⟩
    cases c with
    | nil =>
      have hleft : f.left = 0 := by simpa using hlast
      simp only [List.cons_append, List.nil_append, assemble, push_of_joins hj, if_pos hleft]
    | cons g c =>
      have hleft : f.left ≠ 0 := by
        have hfg := (List.isChain_append.mp hchain).2.1
        exact (List.isChain_cons_cons.mp hfg).1.left
      rw [List.getLast?_cons_cons] at hlast
      have happend : p ++ f :: g :: c = (p ++ [f]) ++ g :: c := by simp
      rw [happend] at hchain ⊢
      have hne : p ++ [f] ≠ [] := List.append_ne_nil_of_right_ne_nil p (List.cons_ne_nil f [])
      rw [List.cons_append, assemble, push_of_joins hj, if_neg hleft]
      simp only [ih hne (List.cons_ne_nil g c) hchain hlast, List.nil_append]

/-- **The fragments of a payload, sent one behind the other, complete it**, whatever is under
construction when the first of them arrives. -/
theorem assemble_complete {p c fs : List (Fragment κ σ β)} (hc : Complete next ok c)
    (hnew : ∀ f ∈ c.head?, f.continuation = false) :
    assemble next ok p (c ++ fs) =
      ((assemble next ok [] fs).1, c :: (assemble next ok [] fs).2) := by
  obtain ⟨hchain, ⟨f, hf, hok⟩, hlast⟩ := hc
  cases c with
  | nil => cases hf
  | cons g c =>
    obtain rfl := Option.some.inj hf
    have hj : ¬ Joins next p g := fun ⟨_, _, hcont⟩ =>
      Bool.noConfusion ((hnew g rfl).symm.trans hcont.continuation)
    rw [List.cons_append, assemble, push_of_new hj hok]
    cases c with
    | nil =>
      have hleft : g.left = 0 := by simpa using hlast
      simp only [if_pos hleft, List.nil_append, List.cons_append]
    | cons e c =>
      have hleft : g.left ≠ 0 := (List.isChain_cons_cons.mp hchain).1.left
      rw [List.getLast?_cons_cons] at hlast
      have hrest : assemble next ok [g] ((e :: c) ++ fs) = _ :=
        assemble_rest (List.cons_ne_nil g []) (List.cons_ne_nil e c) hchain hlast
      rw [if_neg hleft]
      exact congrArg (fun r => (r.1, [] ++ r.2)) hrest

/-- Fragments that leave nothing are payloads of their own, if the first of them does not carry on
what is under construction. -/
theorem assemble_singletons {p fs : List (Fragment κ σ β)} (hfs : ∀ f ∈ fs, f.left = 0 ∧ ok f)
    (hnew : p = [] ∨ ∀ f ∈ fs.head?, f.continuation = false) :
    (assemble next ok p fs).2 = fs.map fun f => [f] := by
  induction fs generalizing p with
  | nil => rfl
  | cons f fs ih =>
    obtain ⟨hleft, hok⟩ := hfs f List.mem_cons_self
    have hj : ¬ Joins next p f := by
      rcases hnew with rfl | hnew
      · exact not_joins_nil
      · rintro ⟨_, _, hcont⟩
        exact Bool.noConfusion ((hnew f rfl).symm.trans hcont.continuation)
    rw [assemble, push_of_new hj hok, if_pos hleft]
    exact congrArg _ (ih (fun g hg => hfs g (List.mem_cons_of_mem f hg)) (.inl rfl))

/-- The payloads of a sender are completed one behind the other. -/
theorem assemble_flatten {p : List (Fragment κ σ β)} {cs : List (List (Fragment κ σ β))}
    (hcs : ∀ c ∈ cs, Complete next ok c ∧ ∀ f ∈ c.head?, f.continuation = false) :
    (assemble next ok p cs.flatten).2 = cs := by
  induction cs generalizing p with
  | nil => rfl
  | cons c cs ih =>
    obtain ⟨hc, hnew⟩ := hcs c List.mem_cons_self
    rw [List.flatten_cons, assemble_complete hc hnew]
    exact congrArg _ (ih fun d hd => hcs d (List.mem_cons_of_mem c hd))

end Fragment

end PicoUros
