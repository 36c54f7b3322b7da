import RiscvSbt.Block.Code
import Mathlib.Data.List.Nodup

/-! The heap of blocks: who owns a block, and that instructions are told apart.

`Heap n s` is what every operation of the builder keeps, for the blocks created from `n`
on: those of the function being translated. `Frame s t main` says that between `s` and
`t` the blocks of `s` other than `main` were left alone. -/
namespace RiscvSbt.Block
open Library

variable {n : Nat} {s t u : State}

structure Heap (n : Nat) (s : State) : Prop where
  insert : n ≤ s.bld.insertBlock ∧ s.bld.insertBlock < s.nextBlock
  updateFirst : s.bld.updateFirst = true
  ids : ∀ b, n ≤ b → b < s.nextBlock → ∀ i ∈ (s.bbs b).insts, i.id < s.nextInstr
  nodup : ∀ b, n ≤ b → b < s.nextBlock → ((s.bbs b).insts.map Instr.id).Nodup
  disjoint : ∀ b c, n ≤ b → b < s.nextBlock → n ≤ c → c < s.nextBlock →
    ∀ i ∈ (s.bbs b).insts, ∀ j ∈ (s.bbs c).insts, i.id = j.id → b = c
  tracked : ∀ k b, s.findBB k = some b →
    n ≤ b ∧ b < s.nextBlock ∧ (s.bbs b).addr = some k ∧ (s.bbs b).untracked = false
  helper : ∀ a b, b ∈ s.ubbs a → n ≤ b ∧ b < s.nextBlock ∧ (s.bbs b).untracked = true
  helper_inj : ∀ a c b, b ∈ s.ubbs a → b ∈ s.ubbs c → a = c
  owned : ∀ b, n ≤ b → b < s.nextBlock → (∃ k, s.findBB k = some b) ∨ ∃ a, b ∈ s.ubbs a

namespace Heap

/-- A block has one address. -/
theorem find_inj (h : Heap n s) {k k' b : Nat} (hk : s.findBB k = some b)
    (hk' : s.findBB k' = some b) : k = k' := by
  have := (h.tracked k b hk).2.2.1.symm.trans (h.tracked k' b hk').2.2.1
  exact Option.some.inj this

theorem find_ne (h : Heap n s) {k k' b c : Nat} (hk : s.findBB k = some b)
    (hk' : s.findBB k' = some c) (hne : k ≠ k') : b ≠ c := by
  rintro rfl
  exact hne (h.find_inj hk hk')

/-- A block is tracked or not. -/
theorem find_ubbs (h : Heap n s) {k a b : Nat} (hk : s.findBB k = some b) : b ∉ s.ubbs a := by
  intro hb
  have := (h.tracked k b hk).2.2.2.symm.trans (h.helper a b hb).2.2
  exact nomatch this

/-- Operations that only move the cursor, or note something down. -/
theorem of_eq (h : Heap n s) (hbbs : ∀ b, (t.bbs b).insts = (s.bbs b).insts ∧
      (t.bbs b).addr = (s.bbs b).addr ∧ (t.bbs b).untracked = (s.bbs b).untracked)
    (hb : t.nextBlock = s.nextBlock) (hi : t.nextInstr = s.nextInstr)
    (hins : n ≤ t.bld.insertBlock ∧ t.bld.insertBlock < s.nextBlock)
    (hu : t.bld.updateFirst = s.bld.updateFirst) (hm : t.func.bbMap = s.func.bbMap)
    (hub : t.func.ubbMap = s.func.ubbMap) : Heap n t := by
  have hfind : ∀ k, t.findBB k = s.findBB k := fun k => by unfold State.findBB; rw [hm]
  have hubbs : ∀ a, t.ubbs a = s.ubbs a := fun a => by unfold State.ubbs; rw [hub]
  refine ⟨hb ▸ hins, hu.trans h.updateFirst, ?_, ?_, ?_, ?_, ?_, ?_, ?_⟩
  · intro b hn hlt
    rw [(hbbs b).1, hi]
    exact h.ids b hn (hb ▸ hlt)
  · intro b hn hlt
    rw [(hbbs b).1]
    exact h.nodup b hn (hb ▸ hlt)
  · intro b c hn hlt hn' hlt'
    rw [(hbbs b).1, (hbbs c).1]
    exact h.disjoint b c hn (hb ▸ hlt) hn' (hb ▸ hlt')
  · intro k b hk
    rw [hfind] at hk
    rw [(hbbs b).2.1, (hbbs b).2.2, hb]
    exact h.tracked k b hk
  · intro a b ha
    rw [hubbs] at ha
    rw [(hbbs b).2.2, hb]
    exact h.helper a b ha
  · intro a c b ha hc
    rw [hubbs] at ha hc
    exact h.helper_inj a c b ha hc
  · intro b hn hlt
    simp only [hfind, hubbs]
    exact h.owned b hn (hb ▸ hlt)

theorem setInsertBlock (h : Heap n s) {b : Nat} (hn : n ≤ b) (hb : b < s.nextBlock) :
    Heap n (s.setInsertBlock b) :=
  h.of_eq (fun _ => ⟨rfl, rfl, rfl⟩) rfl rfl ⟨hn, hb⟩ rfl rfl rfl

end Heap

/-! ### Emitting -/

theorem emit_insts_self (s : State) (kind : Kind) :
    ((s.emit kind).bbs s.bld.insertBlock).insts = s.insertBB.insts ++ [⟨s.nextInstr, kind⟩] := by
  simp only [State.emit, State.setBlock, Function.update_self]

theorem emit_bbs_of_ne {kind : Kind} {b : Nat} (h : b ≠ s.bld.insertBlock) :
    (s.emit kind).bbs b = s.bbs b := by
  simp only [State.emit, State.setBlock, Function.update_of_ne h]

/-- Emitting touches the instructions of the insert block only. -/
theorem emit_bbs (s : State) (kind : Kind) (b : Nat) :
    ((s.emit kind).bbs b).addr = (s.bbs b).addr ∧
      ((s.emit kind).bbs b).untracked = (s.bbs b).untracked ∧
      ((s.emit kind).bbs b).instrMap = (s.bbs b).instrMap := by
  by_cases h : b = s.bld.insertBlock
  · subst h
    simp only [State.emit, State.setBlock, Function.update_self]
    exact ⟨rfl, rfl, rfl⟩
  · rw [emit_bbs_of_ne h]
    exact ⟨rfl, rfl, rfl⟩

theorem emit_marks {kind : Kind} {i : Nat} (h : i < s.nextInstr) :
    (s.emit kind).marks i = s.marks i :=
  Function.update_of_ne (Nat.ne_of_lt h) _ _

theorem emit_marks_self (s : State) (kind : Kind) :
    (s.emit kind).marks s.nextInstr = none :=
  Function.update_self _ _ _

theorem emit_first (h : s.bld.updateFirst = true) (kind : Kind) :
    (s.emit kind).bld.first = s.bld.first.or (some s.nextInstr) := by
  simp only [State.emit, State.updateFirst, h, and_true]
  cases s.bld.first <;> rfl

theorem Heap.emit (h : Heap n s) (kind : Kind) : Heap n (s.emit kind) := by
  have hinsts : ∀ b i, i ∈ ((s.emit kind).bbs b).insts →
      i ∈ (s.bbs b).insts ∨ (b = s.bld.insertBlock ∧ i.id = s.nextInstr) := by
    intro b i hi
    by_cases hb : b = s.bld.insertBlock
    · subst hb
      rw [emit_insts_self, List.mem_append, List.mem_singleton] at hi
      rcases hi with hi | rfl
      · exact .inl hi
      · exact .inr ⟨rfl, rfl⟩
    · rw [emit_bbs_of_ne hb] at hi
      exact .inl hi
  refine ⟨h.insert, h.updateFirst, fun b hn hb i hi => ?_, fun b hn hb => ?_,
    fun b c hn hb hn' hc i hi j hj hij => ?_, fun k b hk => ?_, fun a b ha => ?_,
    h.helper_inj, h.owned⟩
  · rcases hinsts b i hi with hi | ⟨-, hi⟩
    · exact Nat.lt_succ_of_lt (h.ids b hn hb i hi)
    · rw [hi]
      exact Nat.lt_succ_self _
  · by_cases hbe : b = s.bld.insertBlock
    · subst hbe
      rw [emit_insts_self, List.map_append, List.nodup_append]
      refine ⟨h.nodup _ hn hb, List.nodup_singleton _, fun i hi j hj => ?_⟩
      obtain ⟨x, hx, rfl⟩ := List.mem_map.mp hi
      rw [List.mem_singleton.mp hj]
      exact Nat.ne_of_lt (h.ids _ hn hb x hx)
    · rw [emit_bbs_of_ne hbe]
      exact h.nodup b hn hb
  · rcases hinsts b i hi with hi' | ⟨hbi, hi'⟩
    · rcases hinsts c j hj with hj' | ⟨-, hj'⟩
      · exact h.disjoint b c hn hb hn' hc i hi' j hj' hij
      · have := h.ids b hn hb i hi'
        omega
    · rcases hinsts c j hj with hj' | ⟨hcj, -⟩
      · have := h.ids c hn' hc j hj'
        omega
      · rw [hbi, hcj]
  · obtain ⟨hn, hb, haddr, hunt⟩ := h.tracked k b hk
    obtain ⟨ha, hu, -⟩ := emit_bbs s kind b
    exact ⟨hn, hb, ha.trans haddr, hu.trans hunt⟩
  · obtain ⟨hn, hb, hunt⟩ := h.helper a b ha
    exact ⟨hn, hb, (emit_bbs s kind b).2.1.trans hunt⟩

/-! ### New blocks -/

theorem create_bbs_of_ne {v : BasicBlock} {before : Option Nat} {b : Nat} (h : b ≠ s.nextBlock) :
    (s.create v before).bbs b = s.bbs b :=
  Function.update_of_ne h _ _

theorem newBB_find (s : State) (addr : Nat) (before : Option Nat) (k : Nat) :
    (s.newBB addr before).2.findBB k = if k = addr then some s.nextBlock else s.findBB k :=
  Map.get?_upsert _ _ _ _

theorem newBB_bbs_self (s : State) (addr : Nat) (before : Option Nat) :
    (s.newBB addr before).2.bbs s.nextBlock = {f := s.func.f, addr := some addr} :=
  Function.update_self _ _ _

theorem newBB_bbs_of_ne {addr : Nat} {before : Option Nat} {b : Nat} (h : b ≠ s.nextBlock) :
    (s.newBB addr before).2.bbs b = s.bbs b :=
  Function.update_of_ne h _ _

/-- A new block keeps the heap, once it is in one of the maps. -/
theorem Heap.create (h : Heap n s) {v : BasicBlock} (hv : v.insts = [])
    (hbbs : ∀ b, b ≠ s.nextBlock → t.bbs b = s.bbs b) (hnew : t.bbs s.nextBlock = v)
    (hb : t.nextBlock = s.nextBlock + 1) (hi : t.nextInstr = s.nextInstr) (hbld : t.bld = s.bld)
    (hfind : ∀ k b, t.findBB k = some b → s.findBB k = some b ∨
      (b = s.nextBlock ∧ v.addr = some k ∧ v.untracked = false))
    (hubbs : ∀ a b, b ∈ t.ubbs a → b ∈ s.ubbs a ∨ (b = s.nextBlock ∧ v.untracked = true))
    (hinj : ∀ a c, s.nextBlock ∈ t.ubbs a → s.nextBlock ∈ t.ubbs c → a = c)
    (hgrow : Grows s t)
    (hown : (∃ k, t.findBB k = some s.nextBlock) ∨ ∃ a, s.nextBlock ∈ t.ubbs a) : Heap n t := by
  have hle : n ≤ s.nextBlock := Nat.le_of_lt (Nat.lt_of_le_of_lt h.insert.1 h.insert.2)
  have hinsts : ∀ b i, b < t.nextBlock → i ∈ (t.bbs b).insts →
      b < s.nextBlock ∧ i ∈ (s.bbs b).insts := by
    intro b i hlt hi
    by_cases hbe : b = s.nextBlock
    · subst hbe
      rw [hnew, hv] at hi
      exact nomatch hi
    · rw [hbbs b hbe] at hi
      exact ⟨by omega, hi⟩
  refine ⟨?_, hbld ▸ h.updateFirst, fun b hn hlt i hmem => ?_, fun b hn hlt => ?_,
    fun b c hn hlt hn' hlt' i hmem j hmem' hij => ?_, fun k b hk => ?_, fun a b ha => ?_,
    fun a c b ha hc => ?_, fun b hn hlt => ?_⟩
  · rw [hbld, hb]
    exact ⟨h.insert.1, Nat.lt_succ_of_lt h.insert.2⟩
  · obtain ⟨hlt', hmem'⟩ := hinsts b i hlt hmem
    exact hi ▸ h.ids b hn hlt' i hmem'
  · by_cases hbe : b = s.nextBlock
    · rw [hbe, hnew, hv]
      exact List.nodup_nil
    · rw [hbbs b hbe]
      exact h.nodup b hn (by omega)
  · obtain ⟨hb₁, hi₁⟩ := hinsts b i hlt hmem
    obtain ⟨hc₁, hj₁⟩ := hinsts c j hlt' hmem'
    exact h.disjoint b c hn hb₁ hn' hc₁ i hi₁ j hj₁ hij
  · rcases hfind k b hk with hk' | ⟨rfl, ha, hu⟩
    · obtain ⟨hn, hlt, hp⟩ := h.tracked k b hk'
      rw [hbbs b (Nat.ne_of_lt hlt)]
      exact ⟨hn, by omega, hp⟩
    · rw [hnew]
      exact ⟨hle, by omega, ha, hu⟩
  · rcases hubbs a b ha with ha' | ⟨rfl, hu⟩
    · obtain ⟨hn, hlt, hp⟩ := h.helper a b ha'
      rw [hbbs b (Nat.ne_of_lt hlt)]
      exact ⟨hn, by omega, hp⟩
    · rw [hnew]
      exact ⟨hle, by omega, hu⟩
  · rcases hubbs a b ha with ha' | ⟨rfl, hu⟩
    · rcases hubbs c b hc with hc' | ⟨rfl, hu⟩
      · exact h.helper_inj a c b ha' hc'
      · exact absurd (h.helper a _ ha').2.1 (Nat.lt_irrefl _)
    · exact hinj a c ha hc
  · by_cases hbe : b = s.nextBlock
    · rw [hbe]
      exact hown
    · rcases h.owned b hn (by omega) with ⟨k, hk⟩ | ⟨a, ha⟩
      · exact .inl ⟨k, hgrow.find k b hk⟩
      · exact .inr ⟨a, hgrow.ubbs a b ha⟩

theorem newBB_grows {addr : Nat} (before : Option Nat) (h : s.findBB addr = none) :
    Grows s (s.newBB addr before).2 := by
  refine ⟨fun k b hk => ?_, fun _ _ hb => hb⟩
  rw [newBB_find, if_neg]
  · exact hk
  · rintro rfl
    rw [h] at hk
    exact nomatch hk

theorem Heap.newBB (h : Heap n s) {addr : Nat} (before : Option Nat)
    (hnew : s.findBB addr = none) : Heap n (s.newBB addr before).2 := by
  refine h.create (v := {f := s.func.f, addr := some addr}) rfl (fun b hb => newBB_bbs_of_ne hb)
    (newBB_bbs_self s addr before) rfl rfl rfl (fun k b hk => ?_) (fun a b hb => .inl hb)
    (fun a c ha _ => ?_) (newBB_grows before hnew) (.inl ⟨addr, ?_⟩)
  · rw [newBB_find] at hk
    split at hk
    next heq => exact .inr ⟨(Option.some.inj hk).symm, by rw [heq], rfl⟩
    next => exact .inl hk
  · exact absurd (h.helper a _ ha).2.1 (Nat.lt_irrefl _)
  · rw [newBB_find, if_pos rfl]

theorem newUBB_ubbs (s : State) (addr a : Nat) :
    (s.newUBB addr).2.ubbs a = if a = addr then s.ubbs a ++ [s.nextBlock] else s.ubbs a := by
  show ((s.func.ubbMap.upsert addr (s.ubbs addr ++ [s.nextBlock])).get? a).getD [] = _
  rw [Map.get?_upsert]
  split
  next heq => rw [heq]; rfl
  next => rfl

theorem newUBB_bbs_self (s : State) (addr : Nat) :
    (s.newUBB addr).2.bbs s.nextBlock = {f := s.func.f, untracked := true} :=
  Function.update_self _ _ _

theorem newUBB_bbs_of_ne {addr b : Nat} (h : b ≠ s.nextBlock) :
    (s.newUBB addr).2.bbs b = s.bbs b :=
  Function.update_of_ne h _ _

theorem newUBB_grows (s : State) (addr : Nat) : Grows s (s.newUBB addr).2 := by
  refine ⟨fun _ _ hk => hk, fun a b hb => ?_⟩
  rw [newUBB_ubbs]
  split
  · exact List.mem_append_left _ hb
  · exact hb

theorem Heap.newUBB (h : Heap n s) (addr : Nat) : Heap n (s.newUBB addr).2 := by
  have hmem : ∀ a, s.nextBlock ∈ (s.newUBB addr).2.ubbs a → a = addr := by
    intro a ha
    rw [newUBB_ubbs] at ha
    split at ha
    next heq => exact heq
    next => exact absurd (h.helper a _ ha).2.1 (Nat.lt_irrefl _)
  refine h.create (v := {f := s.func.f, untracked := true}) rfl (fun b hb => newUBB_bbs_of_ne hb)
    (newUBB_bbs_self s addr) rfl rfl rfl (fun k b hk => .inl hk) (fun a b hb => ?_)
    (fun a c ha hc => (hmem a ha).trans (hmem c hc).symm) (newUBB_grows s addr) (.inr ⟨addr, ?_⟩)
  · rw [newUBB_ubbs] at hb
    split at hb
    · rcases List.mem_append.mp hb with hb | hb
      · exact .inl hb
      · exact .inr ⟨List.mem_singleton.mp hb, rfl⟩
    · exact .inl hb
  · rw [newUBB_ubbs, if_pos rfl]
    exact List.mem_append_right _ (List.mem_singleton.mpr rfl)

/-! ### Splitting -/

theorem addBB_find (s : State) (addr bb k : Nat) :
    (s.addBB addr bb).findBB k = if k = addr then some bb else s.findBB k :=
  Map.get?_upsert _ _ _ _

/-! ### A split -/

section Halves
variable {k bb addr : Nat} {top bottom : List Instr}

/-- Where an instruction was before a split. -/
theorem State.Halves.mem (hh : State.Halves s bb addr top bottom t)
    (hinsts : (s.bbs bb).insts = top ++ bottom) (hlt : bb < s.nextBlock) :
    ∃ j, s.nextInstr ≤ j ∧ j < t.nextInstr ∧ ∀ b i, i ∈ (t.bbs b).insts →
      (b ≠ s.nextBlock ∧ i ∈ (s.bbs b).insts ∧ (b = bb → i ∈ top)) ∨
      (b = bb ∧ i.id = j) ∨ (b = s.nextBlock ∧ i ∈ bottom) := by
  obtain ⟨j, hj, hj', -, hold⟩ := hh.old
  refine ⟨j, hj, hj', fun b i hi => ?_⟩
  by_cases hbb : b = bb
  · subst hbb
    rw [hold, List.mem_append, List.mem_singleton] at hi
    rcases hi with hi | rfl
    · exact .inl ⟨Nat.ne_of_lt hlt, hinsts ▸ List.mem_append_left _ hi, fun _ => hi⟩
    · exact .inr (.inl ⟨rfl, rfl⟩)
  · by_cases hbn : b = s.nextBlock
    · subst hbn
      rw [hh.new] at hi
      exact .inr (.inr ⟨rfl, hi⟩)
    · rw [hh.other b hbb hbn] at hi
      exact .inl ⟨hbn, hi, fun h => absurd h hbb⟩

theorem Heap.halves_nodup (h : Heap n s) (hn : n ≤ bb) (hlt : bb < s.nextBlock)
    (hinsts : (s.bbs bb).insts = top ++ bottom) (hh : State.Halves s bb addr top bottom t) {b : Nat}
    (hbn : n ≤ b) (hb : b < s.nextBlock + 1) : ((t.bbs b).insts.map Instr.id).Nodup := by
  have hnodup := h.nodup bb hn hlt
  rw [hinsts, List.map_append, List.nodup_append] at hnodup
  by_cases hbb : b = bb
  · obtain ⟨j, hj, -, -, hold⟩ := hh.old
    rw [hbb, hold, List.map_append, List.nodup_append]
    refine ⟨hnodup.1, List.nodup_singleton _, fun x hx y hy => ?_⟩
    obtain ⟨i, hi, rfl⟩ := List.mem_map.mp hx
    rw [List.mem_singleton.mp hy]
    have hid := h.ids bb hn hlt i (hinsts ▸ List.mem_append_left _ hi)
    exact Nat.ne_of_lt (lt_of_lt_of_le hid hj)
  · by_cases hbn' : b = s.nextBlock
    · rw [hbn', hh.new]
      exact hnodup.2.1
    · rw [hh.other b hbb hbn']
      exact h.nodup b hbn (by omega)

/-- No instruction is in two blocks: the halves are parts of one block. -/
theorem Heap.halves_disjoint (h : Heap n s) (hn : n ≤ bb) (hlt : bb < s.nextBlock)
    (hinsts : (s.bbs bb).insts = top ++ bottom) (hh : State.Halves s bb addr top bottom t)
    {b c : Nat} (hbn : n ≤ b) (hb : b < s.nextBlock + 1) (hcn : n ≤ c) (hc : c < s.nextBlock + 1)
    {i x : Instr} (hi : i ∈ (t.bbs b).insts) (hx : x ∈ (t.bbs c).insts) (hix : i.id = x.id) :
    b = c := by
  obtain ⟨j, hj, -, hmem⟩ := hh.mem hinsts hlt
  have hnodup := h.nodup bb hn hlt
  rw [hinsts, List.map_append, List.nodup_append] at hnodup
  have hbot : ∀ i ∈ bottom, i ∈ (s.bbs bb).insts := fun i hi =>
    hinsts ▸ List.mem_append_right _ hi
  have hid : ∀ i ∈ (s.bbs bb).insts, i.id ≠ j := fun i hi =>
    Nat.ne_of_lt (lt_of_lt_of_le (h.ids bb hn hlt i hi) hj)
  have hapart : ∀ i ∈ top, ∀ x ∈ bottom, i.id ≠ x.id := fun i hi x hx =>
    hnodup.2.2 _ (List.mem_map.mpr ⟨i, hi, rfl⟩) _ (List.mem_map.mpr ⟨x, hx, rfl⟩)
  rcases hmem b i hi with ⟨hbn', hi', hib⟩ | ⟨hbb, hi'⟩ | ⟨hbn', hi'⟩
  · rcases hmem c x hx with ⟨hcn', hx', -⟩ | ⟨-, hx'⟩ | ⟨-, hx'⟩
    · exact h.disjoint b c hbn (by omega) hcn (by omega) i hi' x hx' hix
    · have := h.ids b hbn (by omega) i hi'
      omega
    · have hbb := h.disjoint b bb hbn (by omega) hn hlt i hi' x (hbot x hx') hix
      exact absurd hix (hapart i (hib hbb) x hx')
  · rcases hmem c x hx with ⟨hcn', hx', -⟩ | ⟨hcb, -⟩ | ⟨-, hx'⟩
    · have := h.ids c hcn (by omega) x hx'
      omega
    · rw [hbb, hcb]
    · exact absurd (hix.symm.trans hi') (hid x (hbot x hx'))
  · rcases hmem c x hx with ⟨hcn', hx', hxc⟩ | ⟨-, hx'⟩ | ⟨hcn', -⟩
    · have hcb := h.disjoint c bb hcn (by omega) hn hlt x hx' i (hbot i hi') hix.symm
      exact absurd hix.symm (hapart x (hxc hcb) i hi')
    · exact absurd (hix.trans hx') (hid i (hbot i hi'))
    · rw [hbn', hcn']

theorem Heap.halves (h : Heap n s) (hk : s.findBB k = some bb)
    (hinsts : (s.bbs bb).insts = top ++ bottom) (haddr : s.findBB addr = none)
    (hh : State.Halves s bb addr top bottom t) : Heap n (t.addBB addr s.nextBlock) := by
  obtain ⟨hn, hlt, ha, hu⟩ := h.tracked k bb hk
  obtain ⟨j, hj, hj', hmem⟩ := hh.mem hinsts hlt
  obtain ⟨_, -, -, -, hold⟩ := hh.old
  have hubbs : ∀ a, (t.addBB addr s.nextBlock).ubbs a = s.ubbs a := fun a => by
    show t.ubbs a = _
    unfold State.ubbs
    rw [hh.func]
  have hfind : ∀ k, (t.addBB addr s.nextBlock).findBB k =
      if k = addr then some s.nextBlock else s.findBB k := fun k => by
    have hfunc : t.findBB k = s.findBB k := by
      unfold State.findBB
      rw [hh.func]
    rw [addBB_find, hfunc]
  have hnext : (t.addBB addr s.nextBlock).nextBlock = s.nextBlock + 1 := hh.nextBlock
  refine ⟨?_, hh.updateFirst h.updateFirst, fun b hn' hb i hi => ?_, fun b hn' hb => ?_,
    fun b c hbn hb hcn hc i hi x hx hix => ?_, fun k' b hk' => ?_, fun a b hb => ?_,
    fun a c b hb hc => ?_, fun b hn' hb => ?_⟩
  · show n ≤ t.bld.insertBlock ∧ t.bld.insertBlock < t.nextBlock
    rw [hh.insert, hh.nextBlock]
    exact ⟨h.insert.1, Nat.lt_succ_of_lt h.insert.2⟩
  · show i.id < t.nextInstr
    rw [hnext] at hb
    rcases hmem b i hi with ⟨hbn, hi, -⟩ | ⟨-, hi⟩ | ⟨-, hi⟩
    · exact lt_of_lt_of_le (h.ids b hn' (by omega) i hi) hh.nextInstr
    · rw [hi]
      exact hj'
    · have hid := h.ids bb hn hlt i (hinsts ▸ List.mem_append_right _ hi)
      exact lt_of_lt_of_le hid hh.nextInstr
  · exact h.halves_nodup hn hlt hinsts hh hn' (hnext ▸ hb)
  · exact h.halves_disjoint hn hlt hinsts hh hbn (hnext ▸ hb) hcn (hnext ▸ hc) hi hx hix
  · rw [hnext]
    show n ≤ b ∧ b < s.nextBlock + 1 ∧ (t.bbs b).addr = some k' ∧ (t.bbs b).untracked = false
    rw [hfind] at hk'
    split at hk'
    next heq =>
      obtain rfl := Option.some.inj hk'
      rw [hh.new, heq]
      exact ⟨le_trans hn (le_of_lt hlt), Nat.lt_succ_self _, rfl, rfl⟩
    next =>
      obtain ⟨hn', hb, ha', hu'⟩ := h.tracked k' b hk'
      refine ⟨hn', Nat.lt_succ_of_lt hb, ?_⟩
      by_cases hbb : b = bb
      · rw [hbb, hold]
        rw [hbb] at ha' hu'
        exact ⟨ha', hu'⟩
      · rw [hh.other b hbb (Nat.ne_of_lt hb)]
        exact ⟨ha', hu'⟩
  · rw [hubbs] at hb
    obtain ⟨hn', hlt', hu'⟩ := h.helper a b hb
    show n ≤ b ∧ b < t.nextBlock ∧ (t.bbs b).untracked = true
    rw [hh.nextBlock, hh.other b (fun e => h.find_ubbs hk (e ▸ hb)) (Nat.ne_of_lt hlt')]
    exact ⟨hn', Nat.lt_succ_of_lt hlt', hu'⟩
  · rw [hubbs] at hb hc
    exact h.helper_inj a c b hb hc
  · rw [hnext] at hb
    simp only [hubbs, hfind]
    by_cases hbn : b = s.nextBlock
    · exact .inl ⟨addr, by rw [if_pos rfl, hbn]⟩
    · rcases h.owned b hn' (by omega) with ⟨k', hk'⟩ | ⟨a, ha⟩
      · refine .inl ⟨k', ?_⟩
        rw [if_neg]
        · exact hk'
        · rintro rfl
          rw [haddr] at hk'
          exact nomatch hk'
      · exact .inr ⟨a, ha⟩

end Halves

/-! ### Frames -/

/-- Between two states the old blocks other than those in `B` were left alone. -/
structure Frame (n : Nat) (B : Nat → Prop) (s t : State) : Prop extends Grows s t where
  bbs : ∀ b, b < s.nextBlock → ¬ B b → t.bbs b = s.bbs b
  nextBlock : s.nextBlock ≤ t.nextBlock
  marks : ∀ b, n ≤ b → b < s.nextBlock → ¬ B b →
    ∀ i ∈ (s.bbs b).insts, t.marks i.id = s.marks i.id

theorem Frame.trans {B : Nat → Prop} (f : Frame n B s t) (g : Frame n B t u) : Frame n B s u where
  find k b h := g.find k b (f.find k b h)
  ubbs a b h := g.ubbs a b (f.ubbs a b h)
  bbs b hb hB := (g.bbs b (lt_of_lt_of_le hb f.nextBlock) hB).trans (f.bbs b hb hB)
  nextBlock := le_trans f.nextBlock g.nextBlock
  marks b hn hb hB i hi := by
    refine (g.marks b hn (lt_of_lt_of_le hb f.nextBlock) hB i ?_).trans (f.marks b hn hb hB i hi)
    rw [f.bbs b hb hB]
    exact hi

/-- Nothing but the cursor and the maps' growth. -/
theorem Frame.of_eq (B : Nat → Prop) (g : Grows s t) (hbbs : t.bbs = s.bbs)
    (hb : t.nextBlock = s.nextBlock) (hm : t.marks = s.marks) : Frame n B s t where
  toGrows := g
  bbs b _ _ := congrFun hbbs b
  nextBlock := le_of_eq hb.symm
  marks _ _ _ _ _ _ := by rw [hm]

theorem Frame.emit (h : Heap n s) (kind : Kind) :
    Frame n (· = s.bld.insertBlock) s (s.emit kind) where
  find _ _ h := h
  ubbs _ _ h := h
  bbs _ _ hB := emit_bbs_of_ne hB
  nextBlock := le_refl _
  marks b hn hb _ i hi := emit_marks (h.ids b hn hb i hi)

end RiscvSbt.Block
