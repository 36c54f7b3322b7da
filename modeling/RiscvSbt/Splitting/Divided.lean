import RiscvSbt.Splitting.Split

/-! Splitting a tracked block preserves its code.

The halves of a block and of its map belong together: the recorded instructions are in the block in
the order of their addresses, so both halves are tracked blocks again, and the module is as well
formed as before. -/
namespace RiscvSbt.Splitting
open Library

/-! ### Halves of lists and maps -/

/-- What is before an element is before it in a list with no other copy of it. -/
theorem sublist_halves {l₁ l₂ top bottom : List Nat} {a : Nat}
    (h : (l₁ ++ a :: l₂).Sublist (top ++ a :: bottom)) (htop : a ∉ top) (hbottom : a ∉ bottom) :
    l₁.Sublist top ∧ (a :: l₂).Sublist (a :: bottom) := by
  obtain ⟨m₁, m₂, heq, hm₁, hm₂⟩ := List.sublist_append_iff.1 h
  rcases List.append_eq_append_iff.1 heq with ⟨c, rfl, hc⟩ | ⟨c, rfl, hc⟩
  · cases c with
    | nil => exact ⟨by rwa [List.append_nil] at hm₁, hc ▸ hm₂⟩
    | cons x c =>
      obtain ⟨rfl, -⟩ := List.cons.inj hc
      exact absurd (hm₁.subset (List.mem_append_right _ List.mem_cons_self)) htop
  · cases c with
    | nil =>
      rw [List.append_nil]
      exact ⟨hm₁, by rwa [hc] at hm₂⟩
    | cons x c =>
      rw [hc] at hm₂
      have htail : (c ++ a :: l₂).Sublist bottom := hm₂.tail
      exact absurd (htail.subset (List.mem_append_right _ List.mem_cons_self)) hbottom

theorem filter_below (m : Map Nat Nat) (key : Nat) :
    m.data.filter (·.1 < key) = m.below key := by
  rw [← m.below_append_rest key, List.filter_append]
  have hbelow : (m.below key).filter (·.1 < key) = m.below key :=
    List.filter_eq_self.2 fun i hi => decide_eq_true (Map.lt_of_mem_below hi)
  have hrest : (m.rest key).filter (·.1 < key) = [] :=
    List.filter_eq_nil_iff.2 fun i hi => by
      simpa using Map.le_of_mem_rest hi
  rw [hbelow, hrest, List.append_nil]

theorem filter_rest (m : Map Nat Nat) (key : Nat) :
    m.data.filter (key ≤ ·.1) = m.rest key := by
  rw [← m.below_append_rest key, List.filter_append]
  have hrest : (m.rest key).filter (key ≤ ·.1) = m.rest key :=
    List.filter_eq_self.2 fun i hi => decide_eq_true (Map.le_of_mem_rest hi)
  have hbelow : (m.below key).filter (key ≤ ·.1) = [] :=
    List.filter_eq_nil_iff.2 fun i hi => by
      simpa using Map.lt_of_mem_below hi
  rw [hbelow, hrest, List.nil_append]

/-- The rest of a map from a key it has begins with that key. -/
theorem rest_of_get? {m : Map Nat Nat} {key v : Nat} (h : m.get? key = some v) :
    ∃ l, m.rest key = (key, v) :: l := by
  have hhead := Map.lowerBound_self h
  cases hrest : m.rest key with
  | nil =>
    rw [Map.lowerBound, hrest] at hhead
    cases hhead
  | cons i l =>
    rw [Map.lowerBound, hrest] at hhead
    exact ⟨l, by rw [Option.some.inj hhead]⟩

namespace State
variable {s t : State} {bb addr tgt : Nat}

theorem splitMap_data (m : Map Nat Nat) (key : Nat) :
    (splitMap m key).1.data = m.data.filter (·.1 < key) ∧
      (splitMap m key).2.data = m.data.filter (key ≤ ·.1) := by
  rw [filter_below, filter_rest, splitMap]
  split
  next hnil =>
    refine ⟨?_, hnil.symm⟩
    have hdata := m.below_append_rest key
    rw [hnil, List.append_nil] at hdata
    exact hdata.symm
  next => exact ⟨rfl, rfl⟩

/-! ### The split -/

/-- The block `bb` is divided at the instruction `tgt` of `addr`. -/
structure Divided (s : State) (bb addr tgt bb2 : Nat) (t : State) : Prop where
  /-- The instructions before it, and one branch. -/
  upper : ∃ br, s.nextInstr ≤ br ∧ t.instrs br = .br bb2 ∧
    t.lists bb = (s.lists bb).takeWhile (· ≠ tgt) ++ [br]
  lower : t.lists bb2 = (s.lists bb).dropWhile (· ≠ tgt)
  terminator : t.getTerminator bb2 = s.getTerminator bb
  fresh : s.nextBlock ≤ bb2
  instrs : ∀ i, i < s.nextInstr → t.instrs i = s.instrs i
  other : ∀ b, b ≠ bb → b ≠ bb2 → t.lists b = s.lists b ∧ t.bbs b = s.bbs b
  empty : ∀ b, s.Points (s.succIterators bb) b → s.lists b = [] → t.lists b = []
  upperMap : (t.bbs bb).instrMap.data = (s.bbs bb).instrMap.data.filter (·.1 < addr)
  lowerMap : (t.bbs bb2).instrMap.data = (s.bbs bb).instrMap.data.filter (addr ≤ ·.1)
  upperAddr : (t.bbs bb).addr = (s.bbs bb).addr
  lowerAddr : (t.bbs bb2).addr = some addr
  insertBlock : t.bld.bb = s.bld.bb
  atEnd : s.AtEnd → t.AtEnd
  first : t.bld.first = s.bld.first
  updateFirst : s.bld.updateFirst = true → t.bld.updateFirst = true
  tracked : t.Tracked bb ∧ t.Tracked bb2
  wellFormed : t.WellFormed

theorem get?_mem (h : (s.bbs bb).instrMap.get? addr = some tgt) (htracked : s.Tracked bb) :
    tgt ∈ s.lists bb :=
  htracked.recorded.subset (List.mem_map_of_mem (Map.get?_eq_some.1 h))

/-- The terminator goes with the end of a block. -/
theorem getTerminator_suffix {b : Nat} {top bottom : List Nat}
    (hlist : s.lists bb = top ++ tgt :: bottom) (hsuffix : t.lists b = tgt :: bottom)
    (hinstrs : ∀ i ∈ s.lists bb, t.instrs i = s.instrs i) :
    t.getTerminator b = s.getTerminator bb := by
  unfold getTerminator
  have hlast : (s.lists bb).getLast? = (t.lists b).getLast? := by
    rw [hlist, hsuffix, List.getLast?_append_cons]
  rw [← hlast]
  cases hi : (s.lists bb).getLast? with
  | none => rfl
  | some i =>
    rw [Option.filter_some, Option.filter_some, hinstrs i (List.mem_of_getLast? hi)]

/-- Both halves of a tracked block are tracked. -/
theorem Halves.tracked {top bottom : List Nat} (h : Halves s bb addr top (tgt :: bottom) t)
    (htracked : s.Tracked bb) (haddr : (s.bbs bb).instrMap.get? addr = some tgt)
    (hlist : s.lists bb = top ++ tgt :: bottom) (htop : tgt ∉ top) (hbottom : tgt ∉ bottom) :
    t.Tracked bb ∧ t.Tracked s.nextBlock := by
  obtain ⟨l, hrest⟩ := rest_of_get? haddr
  obtain ⟨hbelow, habove⟩ := splitMap_data (s.bbs bb).instrMap addr
  rw [filter_below] at hbelow
  rw [filter_rest, hrest] at habove
  have hrecorded := htracked.recorded
  rw [← Map.below_append_rest _ addr, hrest, List.map_append, List.map_cons, hlist] at hrecorded
  obtain ⟨hupper, hlower⟩ := sublist_halves hrecorded htop hbottom
  obtain ⟨br, -, -, -, hbr⟩ := h.upper
  refine ⟨⟨?_, ?_⟩, ?_, ?_⟩
  · rw [h.nextBlock]
    exact Nat.lt_succ_of_lt htracked.lt
  · rw [h.upperBB htracked.lt, hbelow, hbr]
    exact hupper.trans (List.sublist_append_left _ _)
  · rw [h.nextBlock]
    exact Nat.lt_succ_self _
  · rw [h.lowerBB, habove, h.lower]
    exact hlower

theorem Halves.wellFormed {top bottom : List Nat} (h : Halves s bb addr top bottom t)
    (hwf : s.WellFormed) (hlist : s.lists bb = top ++ bottom) : t.WellFormed := by
  obtain ⟨br, hle, hlt, -, hbr⟩ := h.upper
  have hnodup := hwf.nodup bb
  rw [hlist] at hnodup
  obtain ⟨htop, hbottom, -⟩ := List.nodup_append.1 hnodup
  have htopLt : ∀ i ∈ top, i < s.nextInstr := fun i hi =>
    hwf.lists bb i (hlist ▸ List.mem_append_left _ hi)
  have hbottomLt : ∀ i ∈ bottom, i < s.nextInstr := fun i hi =>
    hwf.lists bb i (hlist ▸ List.mem_append_right _ hi)
  refine ⟨fun b i hi => ?_, fun i hi b hb => ?_, fun b => ?_⟩
  · by_cases hb : b = bb
    · rw [hb, hbr] at hi
      rcases List.mem_append.1 hi with hi | hi
      · exact Nat.lt_of_lt_of_le (htopLt i hi) h.nextInstr
      · exact List.mem_singleton.1 hi ▸ hlt
    · refine Nat.lt_of_lt_of_le ?_ h.nextInstr
      by_cases hnb : b = s.nextBlock
      · rw [hnb, h.lower] at hi
        exact hbottomLt i hi
      · rw [h.other b hb hnb] at hi
        exact hwf.lists b i hi
  · rw [h.nextBlock]
    rcases Nat.lt_or_ge i s.nextInstr with hold | hnew
    · rw [h.instrs i hold] at hb
      exact Nat.lt_succ_of_lt (hwf.succs i hold b hb)
    · rw [h.new i hnew hi b hb]
      exact Nat.lt_succ_self _
  · by_cases hb : b = bb
    · rw [hb, hbr]
      refine List.nodup_append.2 ⟨htop, List.nodup_singleton br, fun i hi j hj => ?_⟩
      rw [List.mem_singleton.1 hj]
      exact Nat.ne_of_lt (Nat.lt_of_lt_of_le (htopLt i hi) hle)
    · by_cases hnb : b = s.nextBlock
      · rw [hnb, h.lower]
        exact hbottom
      · rw [h.other b hb hnb]
        exact hwf.nodup b

/-- **Splitting a tracked block** at the address of a recorded instruction, with an insert block
set. -/
theorem split_preserves (hwf : s.WellFormed) (htracked : s.Tracked bb)
    (haddr : (s.bbs bb).instrMap.get? addr = some tgt) (hbb : s.bld.bb ≠ none) :
    ∃ bb2 t, s.split bb addr = .ok (bb2, t) ∧ Divided s bb addr tgt bb2 t := by
  obtain ⟨bb₀, hbb⟩ := Option.ne_none_iff_exists'.1 hbb
  obtain ⟨top, bottom, hlist⟩ := List.append_of_mem (get?_mem haddr htracked)
  have hnodup := hwf.nodup bb
  rw [hlist] at hnodup
  obtain ⟨-, hnodupBottom, hdisjoint⟩ := List.nodup_append.1 hnodup
  have htop : tgt ∉ top := fun h => hdisjoint tgt h tgt List.mem_cons_self rfl
  have hbottom : tgt ∉ bottom := (List.nodup_cons.1 hnodupBottom).1
  have hspan := span_of_notMem htop bottom
  rw [List.span_eq_takeWhile_dropWhile, ← hlist] at hspan
  obtain ⟨htake, hdrop⟩ := Prod.mk.inj hspan
  obtain ⟨t, hsplit, h⟩ := split_halves hwf htracked.lt haddr hlist htop hbb
  obtain ⟨br, hle, -, hbr, hupper⟩ := h.upper
  have hupperBB := h.upperBB htracked.lt
  have hlowerBB := h.lowerBB
  refine ⟨s.nextBlock, t, hsplit, ?_⟩
  exact
    { upper := ⟨br, hle, hbr, htake ▸ hupper⟩
      lower := h.lower.trans hdrop.symm
      terminator := getTerminator_suffix hlist h.lower fun i hi => h.instrs i (hwf.lists bb i hi)
      fresh := Nat.le_refl _
      instrs := h.instrs
      other := fun b hb hnb => ⟨h.other b hb hnb, h.otherBB hb hnb⟩
      empty := fun b hb hnil => by
        have hne : b ≠ bb := by
          rintro rfl
          rw [hlist] at hnil
          simp at hnil
        rw [h.other b hne (Nat.ne_of_lt (points_lt hwf hb))]
        exact hnil
      upperMap := hupperBB ▸ (splitMap_data _ addr).1
      lowerMap := hlowerBB ▸ (splitMap_data _ addr).2
      upperAddr := by rw [hupperBB]
      lowerAddr := by rw [hlowerBB]
      insertBlock := h.insertBlock
      atEnd := h.atEnd
      first := h.first
      updateFirst := h.updateFirst
      tracked := h.tracked htracked haddr hlist htop hbottom
      wellFormed := h.wellFormed hwf hlist }

/-- A block that branches to an empty one, twice, and to itself. -/
def looping : State where
  instrs i := if i = 2 then .term [1, 1, 0] else .op
  nextInstr := 3
  lists bb := if bb = 0 then [0, 1, 2] else []
  nextBlock := 2
  bbs bb := if bb = 0 then {addr := some 100, instrMap := ⟨[(100, 0), (104, 1)], by decide⟩} else {}
  bld := {bb := some (.of 1), point := some (1, none)}

theorem looping_split :
    ∃ bb2 t, looping.split 0 104 = .ok (bb2, t) ∧ Divided looping 0 104 1 bb2 t := by
  refine split_preserves ⟨fun bb i hi => ?_, fun i hi bb hb => ?_, fun bb => ?_⟩
    ⟨by decide, by decide⟩ rfl (by decide)
  · change i ∈ (if bb = 0 then [0, 1, 2] else []) at hi
    split at hi
    · exact (by decide : ∀ i ∈ [0, 1, 2], i < 3) i hi
    · cases hi
  · exact (by decide : ∀ i < 3, ∀ bb ∈ (looping.instrs i).succs, bb < 2) i hi bb hb
  · show (if bb = 0 then [0, 1, 2] else []).Nodup
    split <;> decide

end State
end RiscvSbt.Splitting
