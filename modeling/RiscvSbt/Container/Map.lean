import RiscvSbt.Library.Search
import RiscvSbt.Library.SortedMap

/-! The map on top of a sorted vector (`Map.h`), as it works on the vector.

On a sorted vector each operation is that of a sorted map. -/
namespace RiscvSbt.Container

/-- A `Map`, by its vector of items. -/
structure Map (K V : Type) where
  data : List (K × V) := []

namespace Map
variable {K V : Type} [LinearOrder K]

/-- The index of the item of a key. The search compares with the key itself: the first item
stands for a value that it does not look at. -/
def lookup (m : Map K V) (key : K) : Option Nat :=
  match m.data with
  | [] => none
  | dummy :: _ =>
    let it := Library.lower_bound (fun i (_ : K × V) => i.1 < key) m.data dummy 0 m.data.length
    match m.data[it]? with
    | none => none
    | some i => if i.1 = key then some it else none

/-- `operator[]`. -/
def lookupVal (m : Map K V) (key : K) : Option V :=
  match m.lookup key with
  | some it => m.data[it]?.map Prod.snd
  | none => none

/-- Appends an item and merges it in. -/
def insert (m : Map K V) (item : K × V) : Map K V :=
  ⟨Library.inplace_merge (fun i1 i2 => i1.1 < i2.1) m.data [item]⟩

def upsert (m : Map K V) (key : K) (val : V) : Map K V :=
  match m.lookup key with
  | some it => ⟨m.data.modify it fun i => (i.1, val)⟩
  | none => m.insert (key, val)

def lower_bound (m : Map K V) (key : K) : Nat :=
  Library.lower_bound (fun i key => i.1 < key) m.data key 0 m.data.length

/-- Erases the items from `it` on. -/
def erase (m : Map K V) (it : Nat) : Map K V := ⟨m.data.take it⟩

/-! ### As a sorted map -/

variable {m : Map K V} {a : Library.Map K V} {key : K}

theorem lt_below_length (a : Library.Map K V) (key : K) {it : Nat} {i : K × V}
    (h : a.data[it]? = some i) : i.1 < key ↔ it < (a.below key).length := by
  rw [← a.below_append_rest key] at h
  constructor
  · intro hlt
    by_contra hge
    rw [List.getElem?_append_right (not_lt.1 hge)] at h
    exact absurd hlt (not_lt.2 (Library.Map.le_of_mem_rest (List.mem_of_getElem? h)))
  · intro hlt
    rw [List.getElem?_append_left hlt] at h
    exact Library.Map.lt_of_mem_below (List.mem_of_getElem? h)

theorem below_length_le (a : Library.Map K V) (key : K) :
    (a.below key).length ≤ a.data.length := by
  rw [← a.below_append_rest key, List.length_append]
  exact Nat.le_add_right _ _

/-- The search, whatever it compares with. -/
theorem search_eq {β : Type} (comp : K × V → β → Bool) (value : β) (key : K)
    (hcomp : ∀ i, comp i value = decide (i.1 < key)) :
    Library.lower_bound comp a.data value 0 a.data.length = (a.below key).length := by
  refine Library.lower_bound_eq (fun it i hi => ?_) (Nat.zero_le _) ?_ ?_
  · rw [hcomp, decide_eq_true_iff, lt_below_length a key hi]
  · rw [Nat.zero_add]
    exact below_length_le a key
  · rw [Nat.zero_add]

theorem lower_bound_eq (a : Library.Map K V) (key : K) :
    lower_bound ⟨a.data⟩ key = (a.below key).length :=
  search_eq _ _ key fun _ => rfl

/-- The item at the lower bound. -/
theorem get_below_length (a : Library.Map K V) (key : K) :
    a.data[(a.below key).length]? = a.lowerBound key := by
  have hget : (a.below key ++ a.rest key)[(a.below key).length]? = (a.rest key).head? := by
    rw [List.getElem?_append_right (Nat.le_refl _), Nat.sub_self, List.head?_eq_getElem?]
  rwa [a.below_append_rest key] at hget

theorem lookup_eq (a : Library.Map K V) (key : K) :
    lookup ⟨a.data⟩ key = (a.get? key).map fun _ => (a.below key).length := by
  unfold lookup Library.Map.get?
  cases hdata : a.data with
  | nil =>
    have hnone := get_below_length a key
    rw [hdata, List.getElem?_nil] at hnone
    rw [← hnone]
    rfl
  | cons dummy l =>
    have hsearch : Library.lower_bound (fun i (_ : K × V) => decide (i.1 < key)) a.data dummy 0
        a.data.length = (a.below key).length := search_eq _ _ key fun _ => rfl
    simp only [← hdata, hsearch, get_below_length]
    cases a.lowerBound key with
    | none => rfl
    | some i => by_cases hkey : i.1 = key <;> simp [hkey]

theorem lookupVal_eq (a : Library.Map K V) (key : K) : lookupVal ⟨a.data⟩ key = a.get? key := by
  unfold lookupVal
  rw [lookup_eq]
  cases hget : a.get? key with
  | none => rfl
  | some val =>
    rw [Option.map_some]
    simp only [get_below_length, Library.Map.lowerBound_self hget, Option.map_some]

/-- Where a key is present, its item follows those below it. -/
theorem rest_eq {a : Library.Map K V} {key : K} {val : V} (h : a.get? key = some val) :
    ∃ above, a.rest key = (key, val) :: above ∧ ∀ i ∈ above, i.1 ≠ key := by
  have hhead := Library.Map.lowerBound_self h
  unfold Library.Map.lowerBound at hhead
  obtain ⟨above, hrest⟩ := List.head?_eq_some_iff.1 hhead
  have hsorted := (a.sorted_split key).2.1
  rw [hrest, List.pairwise_cons] at hsorted
  exact ⟨above, hrest, fun i hi => ne_of_gt (hsorted.1 i hi)⟩

theorem insert_eq (val : V) (h : a.get? key = none) :
    insert ⟨a.data⟩ (key, val) = ⟨a.merged key val⟩ := by
  refine congrArg Map.mk (Library.inplace_merge_singleton fun i hi => ?_)
  -- the key is new: an item that is not above it is below
  have hne : i.1 ≠ key := fun heq => by
    rw [← heq, Library.Map.get?_eq_some.2 hi] at h
    cases h
  rw [← decide_not, decide_eq_decide, not_lt]
  exact ⟨le_of_lt, fun hle => lt_of_le_of_ne hle hne.symm⟩

theorem upsert_eq (a : Library.Map K V) (key : K) (val : V) :
    upsert ⟨a.data⟩ key val = ⟨(a.upsert key val).data⟩ := by
  unfold upsert Library.Map.upsert
  rw [lookup_eq]
  by_cases hget : a.get? key = none
  · rw [dif_pos hget, hget]
    exact insert_eq val hget
  · rw [dif_neg hget]
    obtain ⟨w, hw⟩ := Option.ne_none_iff_exists'.1 hget
    obtain ⟨above, hrest, habove⟩ := rest_eq hw
    have hbelow : (a.below key).map (fun i => if i.1 = key then (key, val) else i) = a.below key :=
      (List.map_congr_left fun i hi => if_neg (ne_of_lt (Library.Map.lt_of_mem_below hi))).trans
        (List.map_id' _)
    have habove' : above.map (fun i => if i.1 = key then (key, val) else i) = above :=
      (List.map_congr_left fun i hi => if_neg (habove i hi)).trans (List.map_id' _)
    rw [hw]
    refine congrArg Map.mk ?_
    show a.data.modify (a.below key).length _ = a.data.map _
    rw [List.modify_eq_take_drop]
    nth_rewrite 1 2 3 [← a.below_append_rest key]
    rw [List.take_left, List.drop_left, hrest, List.map_append, List.map_cons, hbelow, habove',
      if_pos rfl]
    rfl

theorem erase_eq (a : Library.Map K V) (key : K) :
    erase ⟨a.data⟩ (lower_bound ⟨a.data⟩ key) = ⟨(a.erase key).data⟩ := by
  rw [lower_bound_eq, erase]
  have htake : (a.below key ++ a.rest key).take (a.below key).length = a.below key :=
    List.take_left
  rw [a.below_append_rest key] at htake
  exact congrArg Map.mk htake

end Map
end RiscvSbt.Container
