import Mathlib

/-!
# Greedy batches

A queue is cut into batches from the front: a batch takes its first item however
big, then items while its load stays within a limit.  The loads of all batches can
be kept up to date as items join at the back, without cutting the queue.
-/

namespace GreedyBatches

open List

variable {Item : Type*} (weight : Item → Nat) (limit : Nat)

/-- The sum of the weights of some items. -/
def load (items : List Item) : Nat :=
  (items.map weight).sum

/-- The rest of a batch of this load, and the items left. -/
def take (taken : Nat) : List Item → List Item × List Item
  | [] => ([], [])
  | item :: items =>
    if taken = 0 ∨ taken + weight item ≤ limit then
      let (batch, left) := take (taken + weight item) items
      (item :: batch, left)
    else
      ([], item :: items)

/-- The loads of the batches after an item of this weight joins at the back. -/
def enqueue (loads : List Nat) (added : Nat) : List Nat :=
  match loads.getLast? with
  | some last =>
    if last + added ≤ limit then
      loads.dropLast ++ [last + added]
    else
      loads ++ [added]
  | none => [added]

/-- The loads of the batches of a queue, item by item. -/
def loads (items : List Item) : List Nat :=
  (items.map weight).foldl (enqueue limit) []

theorem loads_append_singleton (items : List Item) (item : Item) :
    loads weight limit (items ++ [item]) =
      enqueue limit (loads weight limit items) (weight item) := by
  simp [loads]

theorem take_append (taken : Nat) (items : List Item) :
    (take weight limit taken items).1 ++ (take weight limit taken items).2 = items := by
  induction items generalizing taken with
  | nil => rfl
  | cons item items ih =>
    rw [take]
    split
    · exact congrArg (item :: ·) (ih _)
    · rfl

theorem take_zero_cons (item : Item) (items : List Item) : take weight limit 0 (item :: items) =
      (item :: (take weight limit (weight item) items).1,
        (take weight limit (weight item) items).2) := by
  rw [take, if_pos (Or.inl rfl), Nat.zero_add]

/-- Only the last load matters to an item that joins. -/
theorem enqueue_append_singleton (before : List Nat) (last added : Nat) :
    enqueue limit (before ++ [last]) added = before ++ enqueue limit [last] added := by
  simp only [enqueue, getLast?_concat, getLast?_singleton]
  split <;> simp

/-- An item joins the last batch within the limit, or starts one. -/
theorem enqueue_cases (loads : List Nat) (added : Nat) :
    enqueue limit loads added = loads ++ [added] ∨ ∃ (earlier : List Nat) (last : Nat),
        loads = earlier ++ [last] ∧ last + added ≤ limit ∧
          enqueue limit loads added = earlier ++ [last + added] := by
  rcases eq_nil_or_concat loads with rfl | ⟨earlier, last, rfl⟩
  · exact Or.inl rfl
  · rw [concat_eq_append, enqueue_append_singleton]
    by_cases joins : last + added ≤ limit
    · exact Or.inr ⟨earlier, last, rfl, joins, by simp [enqueue, joins]⟩
    · exact Or.inl (by simp [enqueue, joins])

/-- The batches of a queue, cut from the front. -/
def batches : List Item → List (List Item)
  | [] => []
  | item :: items =>
    let cut := take weight limit (weight item) items
    (item :: cut.1) :: batches cut.2
termination_by items => items.length
decreasing_by
  have whole := congrArg List.length (take_append weight limit (weight item) items)
  rw [List.length_append] at whole
  simp only [List.length_cons]
  omega

/-- The batches after an item joins at the back, without cutting the queue. -/
def join (batches : List (List Item)) (item : Item) : List (List Item) :=
  match batches.getLast? with
  | some last =>
    if load weight last + weight item ≤ limit then
      batches.dropLast ++ [last ++ [item]]
    else
      batches ++ [[item]]
  | none => [[item]]

theorem map_load_join (batches : List (List Item)) (item : Item) :
    (join weight limit batches item).map (load weight) =
      enqueue limit (batches.map (load weight)) (weight item) := by
  rcases eq_nil_or_concat batches with rfl | ⟨earlier, last, rfl⟩
  · simp [join, enqueue, load]
  · simp only [join, enqueue, concat_eq_append, map_append, map_cons, map_nil,
      getLast?_concat, dropLast_concat]
    split <;> simp [load]

/-- Only the last batch matters to an item that joins. -/
theorem join_cons (first : List Item) {batches : List (List Item)} (others : batches ≠ [])
    (item : Item) :
    join weight limit (first :: batches) item = first :: join weight limit batches item := by
  obtain ⟨earlier, last, rfl⟩ := (eq_nil_or_concat batches).resolve_left others
  rw [concat_eq_append, ← cons_append]
  simp only [join, getLast?_concat, dropLast_concat]
  split <;> rfl

/-- An item that joins a queue with something left over is left over too. -/
theorem take_concat_of_ne_nil {taken : Nat} {items : List Item}
    (leftOver : (take weight limit taken items).2 ≠ []) (item : Item) :
    take weight limit taken (items ++ [item]) =
      ((take weight limit taken items).1, (take weight limit taken items).2 ++ [item]) := by
  induction items generalizing taken with
  | nil => exact absurd rfl leftOver
  | cons first items ih =>
    rw [take] at leftOver
    rw [cons_append, take, take]
    split
    · rw [if_pos ‹_›] at leftOver
      rw [ih leftOver]
    · rfl

/-- An item that joins a queue taken whole is taken if the batch has room. -/
theorem take_concat_of_eq_nil {taken : Nat} {items : List Item}
    (whole : (take weight limit taken items).2 = []) (item : Item) :
    take weight limit taken (items ++ [item]) =
      if taken + load weight items = 0 ∨ taken + load weight items + weight item ≤ limit then
        (items ++ [item], [])
      else
        (items, [item]) := by
  induction items generalizing taken with
  | nil => simp [take, load]
  | cons first items ih =>
    rw [take] at whole
    rw [cons_append, take]
    split
    case isTrue joins =>
      rw [if_pos joins] at whole
      rw [ih whole]
      simp only [load, map_cons, sum_cons, Nat.add_assoc]
      split <;> rfl
    case isFalse => simp_all

theorem batches_ne_nil {items : List Item} (nonempty : items ≠ []) :
    batches weight limit items ≠ [] := by
  obtain ⟨item, items, rfl⟩ := exists_cons_of_ne_nil nonempty
  rw [batches]
  exact cons_ne_nil _ _

/-- Cutting the queue gives the batches that were kept item by item. -/
theorem batches_concat (items : List Item) (positive : ∀ item ∈ items, 0 < weight item)
    (item : Item) :
    batches weight limit (items ++ [item]) =
      join weight limit (batches weight limit items) item := by
  fun_induction batches weight limit items with
  | case1 => simp [batches, join, take]
  | case2 first items cut ih =>
    have whole : cut.1 ++ cut.2 = items := take_append weight limit (weight first) items
    rw [cons_append, batches]
    by_cases leftOver : cut.2 = []
    · have firstPositive := positive first mem_cons_self
      rw [take_concat_of_eq_nil weight limit leftOver, leftOver]
      rw [leftOver, append_nil] at whole
      have started : weight first + load weight items ≠ 0 := by omega
      simp only [started, false_or, whole, batches, join, getLast?_singleton]
      split <;> simp_all [load, batches, take]
    · rw [take_concat_of_ne_nil weight limit leftOver,
        join_cons weight limit _ (batches_ne_nil weight limit leftOver)]
      refine congrArg (List.cons _) (ih ?_)
      intro other mem
      exact positive other (mem_cons_of_mem _ (whole ▸ mem_append_right _ mem))

/-- The loads kept item by item are those of the batches. -/
theorem loads_eq_map_batches (items : List Item) (positive : ∀ item ∈ items, 0 < weight item) :
    loads weight limit items = (batches weight limit items).map (load weight) := by
  induction items using List.reverseRecOn with
  | nil => simp [loads, batches]
  | append_singleton items item ih =>
    have earlier : ∀ other ∈ items, 0 < weight other :=
      fun other mem => positive other (mem_append_left _ mem)
    rw [loads_append_singleton, batches_concat weight limit items earlier, map_load_join,
      ih earlier]

/-- The first load is that of the first batch, the others those of what it leaves. -/
theorem loads_eq_cons {items : List Item} (nonempty : items ≠ [])
    (positive : ∀ item ∈ items, 0 < weight item) :
    loads weight limit items = load weight (take weight limit 0 items).1 ::
        loads weight limit (take weight limit 0 items).2 := by
  have restPositive : ∀ item ∈ (take weight limit 0 items).2, 0 < weight item := by
    intro item mem
    rw [← take_append weight limit 0 items] at positive
    exact positive item (mem_append_right _ mem)
  obtain ⟨item, rest, rfl⟩ := exists_cons_of_ne_nil nonempty
  rw [loads_eq_map_batches weight limit _ positive,
    loads_eq_map_batches weight limit _ restPositive, batches, take_zero_cons, map_cons]

/-- Items of positive weight are split in one way into parts of given loads. -/
theorem eq_of_loads {weight : Item → Nat} (positive : ∀ item, 0 < weight item)
    {first second : List (List Item)} (flat : first.flatten = second.flatten)
    (sameLoads : first.map (load weight) = second.map (load weight)) : first = second := by
  have rest_nil {part rest : List Item} (same : load weight part = load weight (part ++ rest)) :
      rest = [] := by
    cases rest with
    | nil => rfl
    | cons item rest =>
      have itemPositive := positive item
      simp only [load, map_append, map_cons, sum_append, sum_cons] at same
      omega
  induction first generalizing second with
  | nil => exact (map_eq_nil_iff.mp sameLoads.symm).symm
  | cons part first ih =>
    cases second with
    | nil => simp at sameLoads
    | cons other second =>
      obtain ⟨sameLoad, others⟩ := cons.inj sameLoads
      obtain rfl : part = other := by
        rcases append_eq_append_iff.mp flat with ⟨rest, rfl, -⟩ | ⟨rest, rfl, -⟩
        · rw [rest_nil sameLoad, append_nil]
        · rw [rest_nil sameLoad.symm, append_nil]
      rw [ih (append_cancel_left flat) others]

end GreedyBatches
