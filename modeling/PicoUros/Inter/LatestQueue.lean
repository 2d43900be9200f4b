import PicoUros.Lib.BoundedFifo
import PicoUros.Lib.Machine
import Mathlib.Data.List.Sublists

/-!
# The latest-wins channel between the cores

The two cores exchange samples through SDK queues with `queue_push_latest` on the producing core
and `queue_try_get_latest` on the consuming core (`src/main.cpp`, lines 343–360). An SDK queue
call is atomic, so a push is up to three steps (`queue_try_add`, `queue_try_remove`,
`queue_try_add`), a get is one `queue_try_remove` after another until the queue is empty, and the
two cores interleave between any two of these steps.

`step` is this machine, for any element type and any capacity. Elements carry the number of their
push; the code never reads it. The state also records what was pushed, what left the queue and
what a get returned, in order.

## Main definitions

* `Tagged`, `Producer`, `Consumer`, `State`, `Act`, `step`: the machine.
* `State.Quiescent`: the queue is empty and neither core is inside an operation.
* `LatestWins`: what the two functions promise to their callers.

## Main results

* `Inv`, `inv_step`, `inv_run`: the invariant. The elements that left the queue, those in it and
  the one in the hand of the producer are together exactly the pushed ones, in order.
* `Inv.returned_sublist`: the results of the gets are a subsequence of the pushed elements.
* `Inv.last_returned`: in a quiescent state the last result is the last pushed element.
* `latestWins_of_run`: every interleaving keeps the promise.
-/

namespace PicoUros.LatestQueue

variable {cap : ℕ} {α : Type*}

/-! ### The machine -/

/-- An element of the queue with the number of the push that it belongs to. -/
structure Tagged (α : Type*) where
  tag : ℕ
  val : α
  deriving DecidableEq

/-- Where the producing core is inside `queue_push_latest`. -/
inductive Producer (α : Type*) where
  | idle
  | add (e : Tagged α)
  | remove (e : Tagged α)
  | readd (e : Tagged α)

/-- Where the consuming core is: inside the loop of `queue_try_get_latest`, with the element
that the last `queue_try_remove` stored, or past it with a result that it has yet to use. -/
inductive Consumer (α : Type*) where
  | idle
  | drain (last : Option (Tagged α))
  | got (e : Tagged α)

structure State (cap : ℕ) (α : Type*) where
  queue : BoundedFifo cap (Tagged α) := .empty cap _
  producer : Producer α := .idle
  consumer : Consumer α := .idle
  /-- The arguments of the pushes begun so far. -/
  pushed : List α := []
  /-- The elements taken out by `queue_try_remove`, by either core. -/
  removed : List (Tagged α) := []
  /-- The results of the gets that returned `true`. -/
  returned : List (Tagged α) := []
  /-- How often the second `queue_try_add` of a push failed. -/
  dropped : ℕ := 0

/-- `push` and `get` enter the two functions, `produce` and `consume` perform the next queue call
inside them, and `use` ends the code that the consuming core runs on a result. -/
inductive Act (α : Type*) where
  | push (a : α)
  | produce
  | get
  | consume
  | use

/-- The next queue call of `queue_push_latest`. -/
def produce (s : State cap α) : Option (State cap α) :=
  match s.producer with
  | .idle => none
  | .add e =>
    match s.queue.tryAdd e with
    | some q => some { s with queue := q, producer := .idle }
    | none => some { s with producer := .remove e }
  | .remove e =>
    match s.queue.tryRemove with
    | some (x, q) => some { s with queue := q, producer := .readd e, removed := s.removed ++ [x] }
    | none => some { s with producer := .readd e }
  | .readd e =>
    match s.queue.tryAdd e with
    | some q => some { s with queue := q, producer := .idle }
    | none => some { s with producer := .idle, dropped := s.dropped + 1 }

/-- The next queue call of `queue_try_get_latest`. -/
def consume (s : State cap α) : Option (State cap α) :=
  match s.consumer with
  | .drain last =>
    match s.queue.tryRemove with
    | some (x, q) =>
      some { s with queue := q, consumer := .drain (some x), removed := s.removed ++ [x] }
    | none =>
      match last with
      | some e => some { s with consumer := .got e, returned := s.returned ++ [e] }
      | none => some { s with consumer := .idle }
  | _ => none

def step (s : State cap α) : Act α → Option (State cap α)
  | .push a =>
    match s.producer with
    | .idle => some { s with producer := .add ⟨s.pushed.length, a⟩, pushed := s.pushed ++ [a] }
    | _ => none
  | .produce => produce s
  | .get =>
    match s.consumer with
    | .idle => some { s with consumer := .drain none }
    | _ => none
  | .consume => consume s
  | .use =>
    match s.consumer with
    | .got _ => some { s with consumer := .idle }
    | _ => none

/-! ### What a state holds -/

/-- The element of a push that is not yet in the queue. -/
def Producer.inHand : Producer α → List (Tagged α)
  | .idle => []
  | .add e | .remove e | .readd e => [e]

/-- The element that a drain in progress would return. -/
def Consumer.held : Consumer α → List (Tagged α)
  | .drain (some e) => [e]
  | _ => []

/-- The result of a get that the consuming core has yet to use. -/
def Consumer.unused : Consumer α → List (Tagged α)
  | .got e => [e]
  | _ => []

/-- The elements of a list with the numbers of their pushes. -/
def tagAll (l : List α) : List (Tagged α) := l.zipIdx.map fun p => ⟨p.2, p.1⟩

/-- The queue is empty and neither core is inside an operation on it. -/
structure State.Quiescent (s : State cap α) : Prop where
  queue : s.queue.items = []
  producer : s.producer = .idle
  consumer : s.consumer = .idle

@[simp] theorem map_tag_tagAll (l : List α) : (tagAll l).map Tagged.tag = List.range l.length := by
  simp [tagAll, Function.comp_def, List.zipIdx_map_snd, List.range_eq_range']

theorem mem_tagAll {l : List α} {e : Tagged α} : e ∈ tagAll l ↔ l[e.tag]? = some e.val := by
  obtain ⟨n, v⟩ := e
  simp only [tagAll, List.mem_map, List.mem_zipIdx_iff_getElem?, Prod.exists, Tagged.mk.injEq]
  constructor
  · rintro ⟨w, k, hk, rfl, rfl⟩
    exact hk
  · intro h
    exact ⟨v, n, h, rfl, rfl⟩

theorem tagAll_concat (l : List α) (a : α) : tagAll (l ++ [a]) = tagAll l ++ [⟨l.length, a⟩] := by
  simp [tagAll, List.zipIdx_append]

/-! ### The invariant -/

/-- What holds in every reachable state. -/
structure Inv (s : State cap α) : Prop where
  /-- Conservation: nothing is lost, duplicated or reordered. -/
  chain : s.removed ++ s.queue.items ++ s.producer.inHand = tagAll s.pushed
  /-- What the consuming core returned or still holds it took out of the queue. -/
  taken : (s.returned ++ s.consumer.held).Sublist s.removed
  /-- Whatever else left the queue was superseded by a later push. -/
  superseded : ∀ e ∈ s.removed, e ∈ s.returned ++ s.consumer.held ∨ e.tag + 1 < s.pushed.length
  /-- After the producer's own `queue_try_remove` there is room. -/
  room : ∀ e, s.producer = .readd e → s.queue.items.length < cap
  dropped : s.dropped = 0

theorem inv_init : Inv ({} : State cap α) where
  chain := rfl
  taken := List.Sublist.refl _
  superseded _ he := absurd he List.not_mem_nil
  room _ he := nomatch he
  dropped := rfl

/-- What one queue call of the producing core can do. -/
theorem produce_cases {s t : State cap α} (h : produce s = some t) :
    (∃ e q, (s.producer = .add e ∨ s.producer = .readd e) ∧ s.queue.tryAdd e = some q ∧
      t = { s with queue := q, producer := .idle }) ∨
    (∃ e, s.producer = .add e ∧ s.queue.tryAdd e = none ∧ t = { s with producer := .remove e }) ∨
    (∃ e x q, s.producer = .remove e ∧ s.queue.tryRemove = some (x, q) ∧
      t = { s with queue := q, producer := .readd e, removed := s.removed ++ [x] }) ∨
    (∃ e, s.producer = .remove e ∧ s.queue.tryRemove = none ∧
      t = { s with producer := .readd e }) ∨
    (∃ e, s.producer = .readd e ∧ s.queue.tryAdd e = none ∧
      t = { s with producer := .idle, dropped := s.dropped + 1 }) := by
  unfold produce at h
  split at h
  · cases h
  · next e hp =>
    split at h <;> rename_i hq <;> cases h
    · exact .inl ⟨e, _, .inl hp, hq, rfl⟩
    · exact .inr (.inl ⟨e, hp, hq, rfl⟩)
  · next e hp =>
    split at h <;> rename_i hq <;> cases h
    · exact .inr (.inr (.inl ⟨e, _, _, hp, hq, rfl⟩))
    · exact .inr (.inr (.inr (.inl ⟨e, hp, hq, rfl⟩)))
  · next e hp =>
    split at h <;> rename_i hq <;> cases h
    · exact .inl ⟨e, _, .inr hp, hq, rfl⟩
    · exact .inr (.inr (.inr (.inr ⟨e, hp, hq, rfl⟩)))

/-- What one queue call of the consuming core can do. -/
theorem consume_cases {s t : State cap α} (h : consume s = some t) :
    (∃ last x q, s.consumer = .drain last ∧ s.queue.tryRemove = some (x, q) ∧
      t = { s with queue := q, consumer := .drain (some x), removed := s.removed ++ [x] }) ∨
    (∃ e, s.consumer = .drain (some e) ∧ s.queue.tryRemove = none ∧
      t = { s with consumer := .got e, returned := s.returned ++ [e] }) ∨
    (s.consumer = .drain none ∧ s.queue.tryRemove = none ∧ t = { s with consumer := .idle }) := by
  unfold consume at h
  split at h
  · next last hc =>
    split at h
    · next x q hq =>
      cases h
      exact .inl ⟨last, x, q, hc, hq, rfl⟩
    · next hq =>
      split at h <;> cases h
      · exact .inr (.inl ⟨_, hc, hq, rfl⟩)
      · exact .inr (.inr ⟨hc, hq, rfl⟩)
  · cases h

/-- The producing core leaves the requests and the results of the consuming core alone. -/
theorem produce_frame {s t : State cap α} (h : produce s = some t) :
    t.pushed = s.pushed ∧ t.returned = s.returned ∧ t.consumer = s.consumer := by
  rcases produce_cases h with ⟨_, _, -, -, rfl⟩ | ⟨_, -, -, rfl⟩ | ⟨_, _, _, -, -, rfl⟩ |
    ⟨_, -, -, rfl⟩ | ⟨_, -, -, rfl⟩ <;> exact ⟨rfl, rfl, rfl⟩

/-- A get that ends with `true` appends its result, which is then to be used. -/
theorem consume_frame {s t : State cap α} (h : consume s = some t) :
    t.pushed = s.pushed ∧ s.consumer.unused = [] ∧
      t.returned = s.returned ++ t.consumer.unused := by
  rcases consume_cases h with ⟨_, _, _, hc, -, rfl⟩ | ⟨_, hc, -, rfl⟩ | ⟨hc, -, rfl⟩ <;>
    exact ⟨rfl, by rw [hc]; rfl, by simp [Consumer.unused]⟩

/-- An element in front of another one in the chain is superseded. -/
private theorem tag_lt_of_chain {s : State cap α} (h : Inv s) {l : List (Tagged α)}
    {x y : Tagged α} {r : List (Tagged α)}
    (hchain : s.removed ++ s.queue.items ++ s.producer.inHand = l ++ y :: r) (hx : x ∈ l) :
    x.tag + 1 < s.pushed.length := by
  have htags := congrArg (List.map Tagged.tag) (h.chain.symm.trans hchain)
  rw [map_tag_tagAll, List.map_append, List.map_cons] at htags
  have hsorted : (l.map Tagged.tag ++ y.tag :: r.map Tagged.tag).Pairwise (· < ·) :=
    htags ▸ List.pairwise_lt_range
  have hlt : x.tag < y.tag :=
    (List.pairwise_append.mp hsorted).2.2 _ (List.mem_map_of_mem hx) _ List.mem_cons_self
  have hy : y.tag ∈ List.range s.pushed.length := by
    rw [htags]
    exact List.mem_append_right _ List.mem_cons_self
  rw [List.mem_range] at hy
  omega

theorem inv_produce {s t : State cap α} (hcap : 0 < cap) (h : Inv s) (ht : produce s = some t) :
    Inv t := by
  have hchain := h.chain
  rcases produce_cases ht with ⟨e, q, hp, hq, rfl⟩ | ⟨e, hp, hq, rfl⟩ | ⟨e, x, q, hp, hq, rfl⟩ |
    ⟨e, hp, hq, rfl⟩ | ⟨e, hp, hq, rfl⟩
  · obtain ⟨-, hitems⟩ := BoundedFifo.tryAdd_eq_some_iff.mp hq
    have hhand : s.producer.inHand = [e] := by rcases hp with hp | hp <;> rw [hp] <;> rfl
    rw [hhand] at hchain
    exact
      { chain := by simpa [Producer.inHand, hitems] using hchain
        taken := h.taken
        superseded := h.superseded
        room := fun _ he => nomatch he
        dropped := h.dropped }
  · exact
      { chain := by simpa [Producer.inHand, hp] using hchain
        taken := h.taken
        superseded := h.superseded
        room := fun _ he => nomatch he
        dropped := h.dropped }
  · -- The producer throws the oldest element away: its own element is a later push.
    have hitems := BoundedFifo.tryRemove_eq_some_iff.mp hq
    rw [hitems, hp] at hchain
    have hx : x.tag + 1 < s.pushed.length :=
      tag_lt_of_chain h (l := s.removed ++ x :: q.items) (y := e) (r := [])
        (by rw [hitems, hp]; rfl) (by simp)
    exact
      { chain := by simpa [Producer.inHand] using hchain
        taken := h.taken.trans (List.sublist_append_left _ _)
        superseded := fun y hy => by
          rcases List.mem_append.mp hy with hy | hy
          · exact h.superseded y hy
          · exact .inr (List.mem_singleton.mp hy ▸ hx)
        room := fun _ _ => by
          have hle := s.queue.length_le
          rw [hitems, List.length_cons] at hle
          exact hle
        dropped := h.dropped }
  · have hitems := BoundedFifo.tryRemove_eq_none_iff.mp hq
    exact
      { chain := by simpa [Producer.inHand, hp] using hchain
        taken := h.taken
        superseded := h.superseded
        room := fun _ _ => by simpa [hitems] using hcap
        dropped := h.dropped }
  · exact absurd (BoundedFifo.tryAdd_eq_none_iff.mp hq) (h.room e hp).ne

theorem inv_consume {s t : State cap α} (h : Inv s) (ht : consume s = some t) : Inv t := by
  have hchain := h.chain
  rcases consume_cases ht with ⟨last, x, q, hc, hq, rfl⟩ | ⟨e, hc, hq, rfl⟩ | ⟨hc, hq, rfl⟩
  · have hitems := BoundedFifo.tryRemove_eq_some_iff.mp hq
    rw [hitems] at hchain
    have htaken := h.taken
    rw [hc] at htaken
    exact
      { chain := by simpa using hchain
        taken := ((List.sublist_append_left _ _).trans htaken).append (List.Sublist.refl [x])
        superseded := fun y hy => by
          rcases List.mem_append.mp hy with hy | hy
          · rcases h.superseded y hy with hret | hlt
            · rcases List.mem_append.mp hret with hret | -
              · exact .inl (List.mem_append_left _ hret)
              · -- The loop overwrites what it held, and `x` is a later push.
                exact .inr (tag_lt_of_chain h (l := s.removed) (y := x)
                  (r := q.items ++ s.producer.inHand) (by rw [hitems]; simp) hy)
            · exact .inr hlt
          · exact .inl (List.mem_append_right _ (by simpa [Consumer.held] using hy))
        room := fun e he => by
          have hroom := h.room e he
          rw [hitems, List.length_cons] at hroom
          exact (Nat.lt_succ_self _).trans hroom
        dropped := h.dropped }
  · exact
      { chain := hchain
        taken := by simpa [Consumer.held, hc] using h.taken
        superseded := by simpa [Consumer.held, hc, or_assoc] using h.superseded
        room := h.room
        dropped := h.dropped }
  · exact
      { chain := hchain
        taken := by simpa [Consumer.held, hc] using h.taken
        superseded := by simpa [Consumer.held, hc] using h.superseded
        room := h.room
        dropped := h.dropped }

theorem inv_step (hcap : 0 < cap) (s : State cap α) (a : Act α) (t : State cap α) (h : Inv s)
    (ht : step s a = some t) : Inv t := by
  cases a with
  | push a =>
    simp only [step] at ht
    split at ht <;> cases ht
    next hp =>
    have hchain := h.chain
    rw [hp] at hchain
    exact
      { chain := by rw [tagAll_concat, ← hchain]; simp [Producer.inHand]
        taken := h.taken
        superseded := fun e he => (h.superseded e he).imp id fun hlt => by
          simpa using Nat.lt_succ_of_lt hlt
        room := fun _ he => nomatch he
        dropped := h.dropped }
  | produce => exact inv_produce hcap h ht
  | get =>
    simp only [step] at ht
    split at ht <;> cases ht
    next hc =>
    exact
      { chain := h.chain
        taken := by simpa [Consumer.held, hc] using h.taken
        superseded := by simpa [Consumer.held, hc] using h.superseded
        room := h.room
        dropped := h.dropped }
  | consume => exact inv_consume h ht
  | use =>
    simp only [step] at ht
    split at ht <;> cases ht
    next hc =>
    exact
      { chain := h.chain
        taken := by simpa [Consumer.held, hc] using h.taken
        superseded := by simpa [Consumer.held, hc] using h.superseded
        room := h.room
        dropped := h.dropped }

/-- Every state of every interleaving satisfies the invariant. -/
theorem inv_run (hcap : 0 < cap) {as : List (Act α)} {s : State cap α}
    (h : Machine.run step {} as = some s) : Inv s :=
  Machine.inv_of_run (inv_step hcap) inv_init h

/-! ### Consequences -/

namespace Inv

variable {s : State cap α}

/-- The results of the gets come from later and later pushes, none of them twice. -/
theorem returned_sublist (h : Inv s) : s.returned.Sublist (tagAll s.pushed) := by
  rw [← h.chain, List.append_assoc]
  exact ((List.sublist_append_left _ _).trans h.taken).trans (List.sublist_append_left _ _)

/-- Whatever was pushed is out of the queue when both cores are at rest. -/
theorem removed_of_quiescent (h : Inv s) (hs : s.Quiescent) : s.removed = tagAll s.pushed := by
  simpa [hs.queue, hs.producer, Producer.inHand] using h.chain

/-- **The last push wins.** When the queue is empty and both cores are at rest, the last result
is the element of the last push. -/
theorem last_returned (h : Inv s) (hs : s.Quiescent) :
    s.returned.getLast? = (tagAll s.pushed).getLast? := by
  rcases List.eq_nil_or_concat s.pushed with hnil | ⟨l, a, hl⟩
  · have hret : s.returned = [] := by
      simpa [hnil, tagAll] using h.returned_sublist
    rw [hret, hnil]
    rfl
  · have hlast : (⟨l.length, a⟩ : Tagged α) ∈ s.removed := by
      rw [h.removed_of_quiescent hs, hl, List.concat_eq_append, tagAll_concat]
      exact List.mem_append_right _ (List.mem_singleton_self _)
    have hmem : (⟨l.length, a⟩ : Tagged α) ∈ s.returned := by
      rcases h.superseded _ hlast with hmem | hlt
      · simpa [hs.consumer, Consumer.held] using hmem
      · simp [hl] at hlt
    have hsub := h.returned_sublist
    rw [hl, List.concat_eq_append, tagAll_concat] at hsub ⊢
    obtain ⟨l₁, l₂, hret, h₁, h₂⟩ := List.sublist_append_iff.mp hsub
    have hnot : (⟨l.length, a⟩ : Tagged α) ∉ l₁ := fun hin => by
      have htag := List.mem_map_of_mem (f := Tagged.tag) (h₁.subset hin)
      simp at htag
    have hin : (⟨l.length, a⟩ : Tagged α) ∈ l₂ := by
      rw [hret] at hmem
      exact (List.mem_append.mp hmem).resolve_left hnot
    have heq : l₂ = [⟨l.length, a⟩] :=
      h₂.eq_of_length_le (List.length_pos_of_mem hin)
    rw [hret, heq, List.getLast?_concat, List.getLast?_concat]

/-- What left the queue are the first pushes, each of them once. -/
theorem removed_isPrefix (h : Inv s) : s.removed <+: tagAll s.pushed := by
  rw [← h.chain, List.append_assoc]
  exact List.prefix_append _ _

/-- The element of the last push is in the hand of the producing core until it is in the queue,
and only the consuming core takes it out again. -/
theorem last_kept (h : Inv s) (hidle : s.producer = .idle) {e : Tagged α}
    (he : (tagAll s.pushed).getLast? = some e) :
    e ∈ s.queue.items ∨ e ∈ s.returned ++ s.consumer.held := by
  have hmem : e ∈ s.removed ++ s.queue.items := by
    have hchain := h.chain
    rw [hidle, Producer.inHand, List.append_nil] at hchain
    rw [hchain]
    exact List.mem_of_getLast? he
  rcases List.mem_append.mp hmem with hrem | hqueue
  · rcases h.superseded e hrem with htaken | hlt
    · exact .inr htaken
    · -- No push was begun after the last one.
      obtain ⟨l, hl⟩ := List.getLast?_eq_some_iff.mp he
      have htags := congrArg (List.map Tagged.tag) hl
      rw [map_tag_tagAll, List.map_append, List.map_singleton] at htags
      have hlen := congrArg List.length htags
      have hlast : e.tag = s.pushed.length - 1 := by
        have hget := congrArg List.getLast? htags
        rw [List.getLast?_concat, List.getLast?_range] at hget
        split_ifs at hget with hzero
        exact (Option.some.inj hget).symm
      omega
  · exact .inl hqueue

end Inv

/-! ### What is made of the results -/

/-- The outputs in `out` show results of the gets, in their order. The code that the consuming core
runs on the last result may still be ahead. -/
def Shown {β : Type*} (Shows : Tagged α → β → Prop) (s : State cap α) (out : List β) : Prop :=
  ∃ used, (used ++ s.consumer.unused).Sublist s.returned ∧ List.Forall₂ Shows used out

namespace Shown

variable {β : Type*} {Shows : Tagged α → β → Prop} {s t : State cap α} {out : List β}

/-- The queue calls keep what is shown, and a result that is not used may be skipped. -/
theorem step {a : Act α} (h : Shown Shows s out) (ht : LatestQueue.step s a = some t) :
    Shown Shows t out := by
  obtain ⟨used, hsub, hshows⟩ := h
  have hskip : used.Sublist s.returned := (List.sublist_append_left _ _).trans hsub
  refine ⟨used, ?_, hshows⟩
  cases a with
  | push a =>
    simp only [LatestQueue.step] at ht
    split at ht <;> cases ht
    exact hsub
  | produce =>
    obtain ⟨-, hreturned, hconsumer⟩ := produce_frame ht
    rwa [hreturned, hconsumer]
  | get =>
    simp only [LatestQueue.step] at ht
    split at ht <;> cases ht
    simpa [Consumer.unused] using hskip
  | consume =>
    obtain ⟨-, -, hreturned⟩ := consume_frame ht
    rw [hreturned]
    exact hskip.append (List.Sublist.refl _)
  | use =>
    simp only [LatestQueue.step] at ht
    split at ht <;> cases ht
    simpa [Consumer.unused] using hskip

/-- A result in hand is shown when it is used. -/
theorem use {e : Tagged α} {x : β} (h : Shown Shows s out) (he : s.consumer = .got e)
    (hx : Shows e x) (ht : LatestQueue.step s .use = some t) : Shown Shows t (out ++ [x]) := by
  obtain ⟨used, hsub, hshows⟩ := h
  simp only [LatestQueue.step, he, Option.some.injEq] at ht
  subst ht
  rw [he, Consumer.unused] at hsub
  exact ⟨used ++ [e], by simpa [Consumer.unused] using hsub,
    List.rel_append hshows (.cons hx .nil)⟩

/-- The outputs show elements that were pushed, later outputs those of later pushes. -/
theorem pushed (h : Shown Shows s out) (hinv : Inv s) :
    ∃ used, used.Sublist (tagAll s.pushed) ∧ List.Forall₂ Shows used out := by
  obtain ⟨used, hsub, hshows⟩ := h
  exact ⟨used, ((List.sublist_append_left _ _).trans hsub).trans hinv.returned_sublist, hshows⟩

end Shown

/-! ### Latest wins -/

/-- What the callers of the two functions rely on. -/
structure LatestWins (s : State cap α) : Prop where
  /-- The second `queue_try_add` of a push has never failed. -/
  dropped : s.dropped = 0
  /-- Between a push and the next one, its element is in the queue, or the consuming core took it
  out and holds or returned it. -/
  kept : s.producer = .idle → ∀ e, (tagAll s.pushed).getLast? = some e →
    e ∈ s.queue.items ∨ e ∈ s.consumer.held ∨ e ∈ s.returned
  /-- No element is removed twice. -/
  removed : (s.removed.map Tagged.tag).Nodup
  /-- The results come from later and later pushes. -/
  returned : s.returned.Pairwise fun e e' => e.tag < e'.tag
  values : ∀ e ∈ s.returned, s.pushed[e.tag]? = some e.val
  /-- Only what a later push supersedes is lost. -/
  lost : ∀ e ∈ s.removed,
    e ∈ s.returned ∨ e ∈ s.consumer.held ∨ e.tag + 1 < s.pushed.length

theorem pairwise_tag_tagAll (l : List α) : (tagAll l).Pairwise fun e e' => e.tag < e'.tag := by
  rw [← List.pairwise_map (R := (· < ·)), map_tag_tagAll]
  exact List.pairwise_lt_range

/-- **Latest wins.** Whatever the interleaving of the pushes with the gets, nothing is lost but
what a later push supersedes. -/
theorem latestWins_of_run (hcap : 0 < cap) {as : List (Act α)} {s : State cap α}
    (h : Machine.run step {} as = some s) : LatestWins s := by
  have hinv := inv_run hcap h
  have htags := pairwise_tag_tagAll s.pushed
  exact
    { dropped := hinv.dropped
      kept := fun hidle e he => by
        rcases hinv.last_kept hidle he with hqueue | htaken
        · exact .inl hqueue
        · exact .inr (List.mem_append.mp htaken).symm
      removed := by
        have hsub := (htags.sublist hinv.removed_isPrefix.sublist).imp Nat.ne_of_lt
        exact List.pairwise_map.mpr hsub
      returned := htags.sublist hinv.returned_sublist
      values := fun e he => mem_tagAll.mp (hinv.returned_sublist.subset he)
      lost := fun e he => by
        rcases hinv.superseded e he with htaken | hlt
        · rcases List.mem_append.mp htaken with hret | hheld
          · exact .inl hret
          · exact .inr (.inl hheld)
        · exact .inr (.inr hlt) }

/-- A push that finds the queue full, and then empty, since the consuming core is faster. -/
def overtakenPush : List (Act ℕ) :=
  [.push 10, .produce, .push 20, .produce, .get, .consume, .produce, .consume, .use, .produce, .get,
    .consume, .consume]

theorem latestWins_of_run_overtakenPush :
    ∃ s : State 1 ℕ, Machine.run step {} overtakenPush = some s ∧
      s.returned = [⟨0, 10⟩, ⟨1, 20⟩] ∧ LatestWins s := by
  have h : Machine.run (step : State 1 ℕ → _) {} overtakenPush = some _ := rfl
  exact ⟨_, h, rfl, latestWins_of_run (by decide) h⟩

end PicoUros.LatestQueue
