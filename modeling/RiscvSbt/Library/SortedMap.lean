import Mathlib.Data.List.Basic
import Mathlib.Data.List.Sort
import Mathlib.Order.Defs.LinearOrder

/-! A map on top of a sorted vector.

Items are kept strictly sorted by key, so that `lowerBound` splits them into those
below a key and the rest. A map is observed through `get?`; the lemmas below say what
every operation does to it. -/
namespace RiscvSbt.Library

/-- Strictly sorted items. -/
structure Map (K V : Type) [LinearOrder K] where
  data : List (K × V)
  sorted : data.Pairwise (fun i j => i.1 < j.1)

namespace Map
variable {K V : Type} [LinearOrder K]

def empty : Map K V := ⟨[], .nil⟩

instance : Inhabited (Map K V) := ⟨empty⟩

/-- The items below `key`: those before the lower bound of `key`. -/
def below (m : Map K V) (key : K) : List (K × V) := m.data.takeWhile (·.1 < key)

/-- The items from the lower bound of `key` on. -/
def rest (m : Map K V) (key : K) : List (K × V) := m.data.dropWhile (·.1 < key)

/-- The first item whose key is not less than `key`. -/
def lowerBound (m : Map K V) (key : K) : Option (K × V) := (m.rest key).head?

/-- The item before the lower bound of `key`. -/
def previous (m : Map K V) (key : K) : Option (K × V) := (m.below key).getLast?

/-- Value lookup. -/
def get? (m : Map K V) (key : K) : Option V :=
  match m.lowerBound key with
  | some (k, v) => if k = key then some v else none
  | none => none

theorem below_append_rest (m : Map K V) (key : K) : m.below key ++ m.rest key = m.data :=
  List.takeWhile_append_dropWhile

theorem lt_of_mem_below {m : Map K V} {key : K} {i : K × V} (h : i ∈ m.below key) : i.1 < key := by
  have := List.all_eq_true.mp List.all_takeWhile i h
  exact of_decide_eq_true this

theorem sorted_split (m : Map K V) (key : K) :
    (m.below key).Pairwise (fun i j => i.1 < j.1) ∧ (m.rest key).Pairwise (fun i j => i.1 < j.1) ∧
      ∀ i ∈ m.below key, ∀ j ∈ m.rest key, i.1 < j.1 := by
  have h := m.sorted
  rwa [← m.below_append_rest key, List.pairwise_append] at h

theorem le_of_mem_rest {m : Map K V} {key : K} {i : K × V} (h : i ∈ m.rest key) : key ≤ i.1 := by
  have hs := (m.sorted_split key).2.1
  unfold rest at h hs
  cases hd : m.data.dropWhile (·.1 < key) with
  | nil => rw [hd] at h; exact nomatch h
  | cons j l =>
    rw [hd] at h hs
    have hj : key ≤ j.1 := by
      have := List.head?_dropWhile_not (fun i : K × V => decide (i.1 < key)) m.data
      rw [hd] at this
      simpa using this
    rcases List.mem_cons.mp h with rfl | h
    · exact hj
    · exact le_trans hj (le_of_lt ((List.pairwise_cons.mp hs).1 i h))

theorem mem_below {m : Map K V} {key : K} {i : K × V} :
    i ∈ m.below key ↔ i ∈ m.data ∧ i.1 < key := by
  constructor
  · intro h
    exact ⟨m.below_append_rest key ▸ List.mem_append_left _ h, lt_of_mem_below h⟩
  · rintro ⟨h, hlt⟩
    rw [← m.below_append_rest key] at h
    rcases List.mem_append.mp h with h | h
    · exact h
    · exact absurd hlt (not_lt.mpr (le_of_mem_rest h))

theorem mem_rest {m : Map K V} {key : K} {i : K × V} :
    i ∈ m.rest key ↔ i ∈ m.data ∧ key ≤ i.1 := by
  constructor
  · intro h
    exact ⟨m.below_append_rest key ▸ List.mem_append_right _ h, le_of_mem_rest h⟩
  · rintro ⟨h, hle⟩
    rw [← m.below_append_rest key] at h
    rcases List.mem_append.mp h with h | h
    · exact absurd (lt_of_mem_below h) (not_lt.mpr hle)
    · exact h

/-- Two items of one key are one item. -/
theorem eq_of_mem {m : Map K V} {k : K} {v w : V} (hv : (k, v) ∈ m.data) (hw : (k, w) ∈ m.data) :
    v = w := by
  have hs := m.sorted
  obtain ⟨l, r, hl⟩ := List.append_of_mem hv
  rw [hl] at hw hs
  obtain ⟨-, hr, hbr⟩ := List.pairwise_append.mp hs
  rcases List.mem_append.mp hw with hw | hw
  · exact absurd (hbr _ hw _ List.mem_cons_self) (lt_irrefl k)
  · rcases List.mem_cons.mp hw with heq | hw
    · exact (congrArg Prod.snd heq).symm
    · exact absurd ((List.pairwise_cons.mp hr).1 _ hw) (lt_irrefl k)

theorem lowerBound_mem {m : Map K V} {key : K} {i : K × V} (h : m.lowerBound key = some i) :
    i ∈ m.data ∧ key ≤ i.1 ∧ ∀ j ∈ m.data, key ≤ j.1 → i.1 ≤ j.1 := by
  unfold lowerBound at h
  obtain ⟨hm, hle⟩ := mem_rest.mp (List.mem_of_mem_head? h)
  refine ⟨hm, hle, fun j hj hjle => ?_⟩
  have hj' := mem_rest.mpr ⟨hj, hjle⟩
  have hs := (m.sorted_split key).2.1
  cases hr : m.rest key with
  | nil => rw [hr] at hj'; exact nomatch hj'
  | cons a l =>
    rw [hr] at h hj' hs
    obtain rfl : a = i := Option.some.inj h
    rcases List.mem_cons.mp hj' with rfl | hj'
    · exact le_refl _
    · exact le_of_lt ((List.pairwise_cons.mp hs).1 j hj')

/-- An item is what its key is looked up as. -/
theorem get?_eq_some {m : Map K V} {k : K} {v : V} : m.get? k = some v ↔ (k, v) ∈ m.data := by
  unfold get?
  cases h : m.lowerBound k with
  | none =>
    refine ⟨fun h => (nomatch h), fun hm => ?_⟩
    have hr := mem_rest.mpr ⟨hm, le_refl k⟩
    rw [List.head?_eq_none_iff.mp h] at hr
    exact nomatch hr
  | some i =>
    obtain ⟨k', v'⟩ := i
    obtain ⟨hm, hle, hmin⟩ := lowerBound_mem h
    show (if k' = k then some v' else none) = some v ↔ _
    constructor
    · intro h
      split at h
      next heq => rw [← heq, ← Option.some.inj h]; exact hm
      next => exact nomatch h
    · intro hv
      obtain rfl : k' = k := le_antisymm (hmin _ hv (le_refl k)) hle
      rw [if_pos rfl, eq_of_mem hm hv]

/-- **The lower bound** is the least key that is not less. -/
theorem lowerBound_eq_some {m : Map K V} {key k : K} {v : V} :
    m.lowerBound key = some (k, v) ↔
      m.get? k = some v ∧ key ≤ k ∧ ∀ k' w, m.get? k' = some w → key ≤ k' → k ≤ k' := by
  constructor
  · intro h
    obtain ⟨hm, hle, hmin⟩ := lowerBound_mem h
    exact ⟨get?_eq_some.mpr hm, hle, fun k' w hw hk => hmin _ (get?_eq_some.mp hw) hk⟩
  · rintro ⟨hm, hle, hmin⟩
    cases h : m.lowerBound key with
    | none =>
      have hr := mem_rest.mpr ⟨get?_eq_some.mp hm, hle⟩
      rw [List.head?_eq_none_iff.mp h] at hr
      exact nomatch hr
    | some i =>
      obtain ⟨k', v'⟩ := i
      obtain ⟨hm', hle', hmin'⟩ := lowerBound_mem h
      obtain rfl : k' = k :=
        le_antisymm (hmin' _ (get?_eq_some.mp hm) hle) (hmin _ _ (get?_eq_some.mpr hm') hle')
      rw [eq_of_mem hm' (get?_eq_some.mp hm)]

theorem lowerBound_eq_none {m : Map K V} {key : K} :
    m.lowerBound key = none ↔ ∀ k v, m.get? k = some v → k < key := by
  unfold lowerBound
  rw [List.head?_eq_none_iff]
  constructor
  · intro h k v hv
    by_contra hle
    have hr := mem_rest.mpr ⟨get?_eq_some.mp hv, not_lt.mp hle⟩
    rw [h] at hr
    exact nomatch hr
  · intro h
    cases hr : m.rest key with
    | nil => rfl
    | cons i l =>
      obtain ⟨hm, hle⟩ := mem_rest.mp (hr ▸ List.mem_cons_self : i ∈ m.rest key)
      exact absurd (h i.1 i.2 (get?_eq_some.mpr hm)) (not_lt.mpr hle)

/-- The item before the lower bound is the one with the greatest lesser key. -/
theorem previous_eq_some {m : Map K V} {key k : K} {v : V} :
    m.previous key = some (k, v) ↔
      m.get? k = some v ∧ k < key ∧ ∀ k' w, m.get? k' = some w → k' < key → k' ≤ k := by
  have hmax : ∀ i, m.previous key = some i →
      i ∈ m.data ∧ i.1 < key ∧ ∀ j ∈ m.data, j.1 < key → j.1 ≤ i.1 := by
    intro i h
    unfold previous at h
    obtain ⟨ys, hys⟩ := List.getLast?_eq_some_iff.mp h
    obtain ⟨hm, hlt⟩ := mem_below.mp (hys ▸ List.mem_append_right _ (List.mem_singleton.mpr rfl))
    refine ⟨hm, hlt, fun j hj hjlt => ?_⟩
    have hj' := mem_below.mpr ⟨hj, hjlt⟩
    have hs := (m.sorted_split key).1
    rw [hys] at hj' hs
    rcases List.mem_append.mp hj' with hj' | hj'
    · exact le_of_lt ((List.pairwise_append.mp hs).2.2 j hj' i (List.mem_singleton.mpr rfl))
    · rw [List.mem_singleton.mp hj']
  constructor
  · intro h
    obtain ⟨hm, hlt, hle⟩ := hmax _ h
    exact ⟨get?_eq_some.mpr hm, hlt, fun k' w hw hk => hle _ (get?_eq_some.mp hw) hk⟩
  · rintro ⟨hm, hlt, hle⟩
    cases h : m.previous key with
    | none =>
      have hb := mem_below.mpr ⟨get?_eq_some.mp hm, hlt⟩
      rw [List.getLast?_eq_none_iff.mp h] at hb
      exact nomatch hb
    | some i =>
      obtain ⟨k', v'⟩ := i
      obtain ⟨hm', hlt', hle'⟩ := hmax _ h
      obtain rfl : k' = k :=
        le_antisymm (hle _ _ (get?_eq_some.mpr hm') hlt') (hle' _ (get?_eq_some.mp hm) hlt)
      rw [eq_of_mem hm' (get?_eq_some.mp hm)]

theorem previous_eq_none {m : Map K V} {key : K} :
    m.previous key = none ↔ ∀ k v, m.get? k = some v → key ≤ k := by
  unfold previous
  rw [List.getLast?_eq_none_iff]
  constructor
  · intro h k v hv
    by_contra hlt
    have hb := mem_below.mpr ⟨get?_eq_some.mp hv, not_le.mp hlt⟩
    rw [h] at hb
    exact nomatch hb
  · intro h
    cases hr : m.below key with
    | nil => rfl
    | cons i l =>
      obtain ⟨hm, hlt⟩ := mem_below.mp (hr ▸ List.mem_cons_self : i ∈ m.below key)
      exact absurd (h i.1 i.2 (get?_eq_some.mpr hm)) (not_le.mpr hlt)

/-- The lower bound of a present key is its item. -/
theorem lowerBound_self {m : Map K V} {k : K} {v : V} (h : m.get? k = some v) :
    m.lowerBound k = some (k, v) :=
  lowerBound_eq_some.mpr ⟨h, le_refl k, fun _ _ _ hk => hk⟩

/-! ### Updates -/

/-- `inplace_merge` of the items with a new one: it goes between those below its key and
the rest. -/
def merged (m : Map K V) (key : K) (val : V) : List (K × V) :=
  m.below key ++ (key, val) :: m.rest key

theorem mem_merged {m : Map K V} {key : K} {val : V} {i : K × V} :
    i ∈ m.merged key val ↔ i ∈ m.data ∨ i = (key, val) := by
  rw [← m.below_append_rest key]
  unfold merged
  rw [List.mem_append, List.mem_cons, List.mem_append]
  constructor
  · rintro (h | h | h)
    · exact .inl (.inl h)
    · exact .inr h
    · exact .inl (.inr h)
  · rintro ((h | h) | h)
    · exact .inl h
    · exact .inr (.inr h)
    · exact .inr (.inl h)

theorem sorted_merged {m : Map K V} {key : K} (val : V) (h : m.get? key = none) :
    (m.merged key val).Pairwise (fun i j => i.1 < j.1) := by
  obtain ⟨hbelow, hrest, hlt⟩ := m.sorted_split key
  refine List.pairwise_append.mpr ⟨hbelow, List.pairwise_cons.mpr ⟨fun i hi => ?_, hrest⟩,
    fun i hi j hj => ?_⟩
  · refine lt_of_le_of_ne (le_of_mem_rest hi) fun heq => ?_
    have hi' := get?_eq_some.mpr (mem_rest.mp hi).1
    rw [← heq, h] at hi'
    exact nomatch hi'
  · rcases List.mem_cons.mp hj with rfl | hj
    · exact lt_of_mem_below hi
    · exact hlt i hi j hj

/-- `upsert`: assigns the value of a present key, otherwise inserts a new item. -/
def upsert (m : Map K V) (key : K) (val : V) : Map K V :=
  if h : m.get? key = none then ⟨m.merged key val, sorted_merged val h⟩
  else
    { data := m.data.map fun i => if i.1 = key then (key, val) else i
      sorted := by
        refine List.pairwise_map.mpr (m.sorted.imp fun {i j} hij => ?_)
        split <;> split <;> simp_all }

/-- Removes the items from the lower bound of `key` on. -/
def erase (m : Map K V) (key : K) : Map K V := ⟨m.below key, (m.sorted_split key).1⟩

/-- The items from the lower bound of `key` on, as a map. -/
def suffix (m : Map K V) (key : K) : Map K V := ⟨m.rest key, (m.sorted_split key).2.1⟩

@[simp] theorem get?_empty (k : K) : (empty : Map K V).get? k = none := rfl

theorem mem_upsert {m : Map K V} {key k : K} {val v : V} :
    (k, v) ∈ (m.upsert key val).data ↔ (k = key ∧ v = val) ∨ (k ≠ key ∧ (k, v) ∈ m.data) := by
  unfold upsert
  split
  next h =>
    rw [mem_merged, Prod.mk.injEq, or_comm]
    refine or_congr Iff.rfl ⟨fun hm => ⟨?_, hm⟩, fun hm => hm.2⟩
    rintro rfl
    rw [get?_eq_some.mpr hm] at h
    exact nomatch h
  next h =>
    obtain ⟨w, hw⟩ := Option.ne_none_iff_exists'.mp h
    rw [List.mem_map]
    constructor
    · rintro ⟨i, hi, heq⟩
      by_cases hk : i.1 = key
      · rw [if_pos hk, Prod.mk.injEq] at heq
        exact .inl ⟨heq.1.symm, heq.2.symm⟩
      · rw [if_neg hk] at heq
        exact .inr ⟨by rw [heq] at hk; exact hk, heq ▸ hi⟩
    · rintro (⟨rfl, rfl⟩ | ⟨hne, hm⟩)
      · exact ⟨_, get?_eq_some.mp hw, if_pos rfl⟩
      · exact ⟨_, hm, if_neg hne⟩

theorem get?_upsert (m : Map K V) (key k : K) (val : V) :
    (m.upsert key val).get? k = if k = key then some val else m.get? k := by
  refine Option.ext fun v => ?_
  rw [get?_eq_some, mem_upsert]
  split
  next h => simp [h, eq_comm]
  next h => simp [h, get?_eq_some]

@[simp] theorem get?_upsert_self (m : Map K V) (key : K) (val : V) :
    (m.upsert key val).get? key = some val := by
  rw [get?_upsert, if_pos rfl]

theorem get?_upsert_of_ne {m : Map K V} {key k : K} {val : V} (h : k ≠ key) :
    (m.upsert key val).get? k = m.get? k := by
  rw [get?_upsert, if_neg h]

theorem get?_erase (m : Map K V) (key k : K) :
    (m.erase key).get? k = if k < key then m.get? k else none := by
  refine Option.ext fun v => ?_
  rw [get?_eq_some, erase, mem_below]
  split
  next h => simp [h, get?_eq_some]
  next h => simp [h]

/-- Removes the item of `key`, if there is one. -/
def remove (m : Map K V) (key : K) : Map K V :=
  ⟨m.data.filter (·.1 ≠ key), m.sorted.filter _⟩

theorem get?_remove (m : Map K V) (key k : K) :
    (m.remove key).get? k = if k = key then none else m.get? k := by
  refine Option.ext fun v => ?_
  rw [get?_eq_some, remove, List.mem_filter]
  split
  next h => simp [h]
  next h => simp [h, get?_eq_some]

theorem get?_suffix (m : Map K V) (key k : K) :
    (m.suffix key).get? k = if key ≤ k then m.get? k else none := by
  refine Option.ext fun v => ?_
  rw [get?_eq_some, suffix, mem_rest]
  split
  next h => simp [h, get?_eq_some]
  next h => simp [h]

/-- The last item has the highest key. -/
theorem highest {m : Map K V} {k : K} {v : V} (h : m.data.getLast? = some (k, v)) :
    m.get? k = some v ∧ ∀ k' v', m.get? k' = some v' → k' ≤ k := by
  obtain ⟨l, hl⟩ := List.getLast?_eq_some_iff.mp h
  refine ⟨get?_eq_some.mpr (by rw [hl]; simp), fun k' v' hk' => ?_⟩
  have hmem := get?_eq_some.mp hk'
  rw [hl] at hmem
  rcases List.mem_append.mp hmem with hmem | hmem
  · have hs := m.sorted
    rw [hl] at hs
    exact le_of_lt ((List.pairwise_append.mp hs).2.2 _ hmem _ (List.mem_singleton.mpr rfl))
  · exact le_of_eq (congrArg Prod.fst (List.mem_singleton.mp hmem))

theorem eq_empty {m : Map K V} (h : ∀ k v, m.get? k ≠ some v) : m = empty := by
  have hdata : m.data = [] := List.eq_nil_iff_forall_not_mem.mpr fun i hi =>
    h i.1 i.2 (get?_eq_some.mpr hi)
  obtain ⟨data, sorted⟩ := m
  subst hdata
  rfl

theorem exists_highest {m : Map K V} {k : K} {v : V} (h : m.get? k = some v) :
    ∃ i, m.data.getLast? = some i := by
  cases hl : m.data.getLast? with
  | some i => exact ⟨i, rfl⟩
  | none =>
    have hmem := get?_eq_some.mp h
    rw [List.getLast?_eq_none_iff.mp hl] at hmem
    cases hmem

/-- The items are known from what the keys are looked up as, and their order. -/
theorem data_eq {m : Map K V} {l : List (K × V)} (hl : l.Pairwise fun i j => i.1 < j.1)
    (h : ∀ k v, m.get? k = some v ↔ (k, v) ∈ l) : m.data = l := by
  have : Std.Irrefl fun i j : K × V => i.1 < j.1 := ⟨fun _ => lt_irrefl _⟩
  have : Std.Antisymm fun i j : K × V => i.1 < j.1 := ⟨fun _ _ h h' => absurd h (lt_asymm h')⟩
  refine m.sorted.eq_of_mem_iff hl fun i => ?_
  rw [← h, get?_eq_some]

end Map
end RiscvSbt.Library
