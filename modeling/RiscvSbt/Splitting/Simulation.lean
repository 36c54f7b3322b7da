import RiscvSbt.Splitting.Divided
import RiscvSbt.Block.Split

/-! The split that block construction uses is this one.

There a block holds its instructions itself, and the builder has no insert point. The two name the
new branch apart, for the dummies here and there are not looked at: a renaming of instructions
relates the states. -/
namespace RiscvSbt.Splitting
open Library

def opcode : Block.Kind → Opcode
  | .op => .op
  | .br bb => .br bb
  | .ret => .retVoid
  | kind => .term kind.succs

theorem opcode_succs (kind : Block.Kind) : (opcode kind).succs = kind.succs := by
  cases kind <;> rfl

/-- An instruction map with other names of instructions. -/
def rename (ρ : Nat → Nat) (i : Nat × Nat) : Nat × Nat := (i.1, ρ i.2)

/-- A block `blk` of block construction, seen in the objects of LLVM. Its instructions have names
below `n`. -/
structure Shows (ρ : Nat → Nat) (s : State) (bb : Nat) (blk : Block.BasicBlock) (n : Nat) :
    Prop where
  list : s.lists bb = blk.insts.map fun i => ρ i.id
  instrs : ∀ i ∈ blk.insts, s.instrs (ρ i.id) = opcode i.kind
  map : (s.bbs bb).instrMap.data = blk.instrMap.data.map (rename ρ)
  addr : (s.bbs bb).addr = blk.addr
  ids : ∀ i ∈ blk.insts, i.id < n
  recorded : ∀ i ∈ blk.instrMap.data, i.2 < n

structure Represents (ρ : Nat → Nat) (s : State) (b : Block.State) : Prop where
  blocks : ∀ bb, Shows ρ s bb (b.bbs bb) b.nextInstr
  nextBlock : s.nextBlock = b.nextBlock
  insertBlock : s.bld.bb = some (.of b.bld.insertBlock)

variable {ρ ρ' : Nat → Nat} {s t : State} {b : Block.State} {blk : Block.BasicBlock}
  {bb addr n n' : Nat}

/-! ### One block -/

namespace Shows

theorem lt (h : Shows ρ s bb blk n) (hwf : s.WellFormed) {i : Block.Instr} (hi : i ∈ blk.insts) :
    ρ i.id < s.nextInstr := by
  refine hwf.lists bb _ ?_
  rw [h.list]
  exact List.mem_map_of_mem (f := fun i : Block.Instr => ρ i.id) hi

theorem get? (h : Shows ρ s bb blk n) {tgt : Nat} (haddr : blk.instrMap.get? addr = some tgt) :
    (s.bbs bb).instrMap.get? addr = some (ρ tgt) := by
  rw [Map.get?_eq_some, h.map]
  exact List.mem_map_of_mem (f := rename ρ) (Map.get?_eq_some.1 haddr)

theorem tracked (h : Shows ρ s bb blk n) (hlt : bb < s.nextBlock)
    (hrecorded : (blk.instrMap.data.map Prod.snd).Sublist (blk.insts.map Block.Instr.id)) :
    s.Tracked bb := by
  refine ⟨hlt, ?_⟩
  have hmap := hrecorded.map ρ
  rw [List.map_map, List.map_map] at hmap
  rw [h.map, h.list, List.map_map]
  exact hmap

/-- The terminator's successors are names in use. -/
theorem succs (h : Shows ρ s bb blk n) (hwf : s.WellFormed) {kind : Block.Kind}
    (hterm : Block.terminator blk.insts = some kind) : s.nextBlock ∉ kind.succs := by
  obtain ⟨hlast, -⟩ := Option.filter_eq_some_iff.1 hterm
  obtain ⟨i, hi, rfl⟩ := Option.map_eq_some_iff.1 hlast
  have hmem := List.mem_of_getLast? hi
  intro hsucc
  rw [← opcode_succs, ← h.instrs i hmem] at hsucc
  exact Nat.lt_irrefl _ (hwf.succs _ (h.lt hwf hmem) _ hsucc)

end Shows

/-- New names for what is new. -/
theorem names_congr (hρ : ∀ i, i < n → ρ' i = ρ i) {l : List Block.Instr} (hl : ∀ i ∈ l, i.id < n) :
    (l.map fun i => ρ' i.id) = l.map fun i => ρ i.id :=
  List.map_congr_left fun i hi => hρ i.id (hl i hi)

theorem rename_congr (hρ : ∀ i, i < n → ρ' i = ρ i) {l : List (Nat × Nat)}
    (hl : ∀ i ∈ l, i.2 < n) : l.map (rename ρ') = l.map (rename ρ) := by
  refine List.map_congr_left fun i hi => ?_
  rw [rename, rename, hρ i.2 (hl i hi)]

/-- A block that is not split. -/
theorem Shows.mono (h : Shows ρ s bb blk n) (hwf : s.WellFormed) (hlist : t.lists bb = s.lists bb)
    (hbb : t.bbs bb = s.bbs bb) (hinstrs : ∀ i, i < s.nextInstr → t.instrs i = s.instrs i)
    (hρ : ∀ i, i < n → ρ' i = ρ i) (hn : n ≤ n') : Shows ρ' t bb blk n' where
  list := by rw [hlist, h.list, names_congr hρ h.ids]
  instrs i hi := by
    rw [hρ i.id (h.ids i hi), hinstrs _ (h.lt hwf hi)]
    exact h.instrs i hi
  map := by rw [hbb, h.map, rename_congr hρ h.recorded]
  addr := by rw [hbb, h.addr]
  ids i hi := Nat.lt_of_lt_of_le (h.ids i hi) hn
  recorded i hi := Nat.lt_of_lt_of_le (h.recorded i hi) hn

/-! ### The split -/

/-- What both splits make of the maps. -/
theorem splitMap_rename {m m' : Map Nat Nat} (hm : m.data = m'.data.map (rename ρ)) (key : Nat) :
    (State.splitMap m key).1.data = (m'.erase key).data.map (rename ρ) ∧
      (State.splitMap m key).2.data = (m'.suffix key).data.map (rename ρ) := by
  obtain ⟨hupper, hlower⟩ := State.splitMap_data m key
  rw [hupper, hlower, hm, List.filter_map, List.filter_map]
  exact ⟨congrArg _ (filter_below m' key), congrArg _ (filter_rest m' key)⟩

section Halves
variable {up low : List Nat} {top bottom : List Block.Instr}

/-- Its instructions are what they were. -/
theorem Shows.instrs_kept (h : Shows ρ s bb blk n) (hwf : s.WellFormed)
    (G : State.Halves s bb addr up low t) (hρ : ∀ i, i < n → ρ' i = ρ i) :
    ∀ i ∈ blk.insts, t.instrs (ρ' i.id) = opcode i.kind := by
  intro i hi
  rw [hρ i.id (h.ids i hi), G.instrs _ (h.lt hwf hi)]
  exact h.instrs i hi

/-- The upper half, with the new branch. -/
theorem Shows.upper (h : Shows ρ s bb blk n) (hwf : s.WellFormed) (hlt : bb < s.nextBlock)
    (G : State.Halves s bb addr up low t) (hinsts : blk.insts = top ++ bottom)
    (hup : up = top.map fun i => ρ i.id) (hρ : ∀ i, i < n → ρ' i = ρ i) (hn : n ≤ n')
    {br : Block.Instr} (hkind : br.kind = .br s.nextBlock) (hbrlt : br.id < n')
    (hbr : t.instrs (ρ' br.id) = .br s.nextBlock) (hlist : t.lists bb = up ++ [ρ' br.id]) :
    Shows ρ' t bb {blk with insts := top ++ [br], instrMap := blk.instrMap.erase addr} n' := by
  have hids : ∀ i ∈ top, i.id < n := fun i hi =>
    h.ids i (hinsts ▸ List.mem_append_left _ hi)
  have hrecorded : ∀ i ∈ (blk.instrMap.erase addr).data, i.2 < n := fun i hi =>
    h.recorded i (Map.mem_below.1 hi).1
  have hbb := G.upperBB hlt
  refine ⟨?_, fun i hi => ?_, ?_, ?_, fun i hi => ?_, fun i hi => ?_⟩
  · rw [hlist, hup, List.map_append, names_congr hρ hids, List.map_singleton]
  · rcases List.mem_append.1 hi with hi | hi
    · exact h.instrs_kept hwf G hρ i (hinsts ▸ List.mem_append_left _ hi)
    · rw [List.mem_singleton.1 hi, hkind]
      exact hbr
  · rw [hbb]
    exact (splitMap_rename h.map addr).1.trans (rename_congr hρ hrecorded).symm
  · rw [hbb]
    exact h.addr
  · rcases List.mem_append.1 hi with hi | hi
    · exact Nat.lt_of_lt_of_le (hids i hi) hn
    · exact List.mem_singleton.1 hi ▸ hbrlt
  · exact Nat.lt_of_lt_of_le (hrecorded i hi) hn

/-- The lower half, in the new block. -/
theorem Shows.lower (h : Shows ρ s bb blk n) (hwf : s.WellFormed)
    (G : State.Halves s bb addr up low t) (hinsts : blk.insts = top ++ bottom)
    (hlow : low = bottom.map fun i => ρ i.id) (hρ : ∀ i, i < n → ρ' i = ρ i) (hn : n ≤ n') :
    Shows ρ' t s.nextBlock
      {f := blk.f, addr := some addr, insts := bottom, instrMap := blk.instrMap.suffix addr}
      n' := by
  have hids : ∀ i ∈ bottom, i.id < n := fun i hi =>
    h.ids i (hinsts ▸ List.mem_append_right _ hi)
  have hrecorded : ∀ i ∈ (blk.instrMap.suffix addr).data, i.2 < n := fun i hi =>
    h.recorded i (Map.mem_rest.1 hi).1
  have hbb := G.lowerBB
  refine ⟨?_, fun i hi => ?_, ?_, ?_, fun i hi => ?_, fun i hi => ?_⟩
  · rw [G.lower, hlow, names_congr hρ hids]
  · exact h.instrs_kept hwf G hρ i (hinsts ▸ List.mem_append_right _ hi)
  · rw [hbb]
    exact (splitMap_rename h.map addr).2.trans (rename_congr hρ hrecorded).symm
  · rw [hbb]
  · exact Nat.lt_of_lt_of_le (hids i hi) hn
  · exact Nat.lt_of_lt_of_le (hrecorded i hi) hn

end Halves

/-- **The two splits agree**, but for the name of the new branch. -/
theorem split_simulates (h : Represents ρ s b) (hwf : s.WellFormed) (hlt : bb < b.nextBlock)
    (hrecorded : ((b.bbs bb).instrMap.data.map Prod.snd).Sublist
      ((b.bbs bb).insts.map Block.Instr.id)) {tgt : Nat}
    (haddr : (b.bbs bb).instrMap.get? addr = some tgt) :
    ∃ t c ρ', s.split bb addr = .ok (b.nextBlock, t) ∧ b.split bb addr = .ok (b.nextBlock, c) ∧
      (∀ i, i < b.nextInstr → ρ' i = ρ i) ∧ Represents ρ' t c := by
  have hblock := h.blocks bb
  have htracked := hblock.tracked (h.nextBlock ▸ hlt) hrecorded
  obtain ⟨i, hi, rfl⟩ := List.mem_map.1
    (hrecorded.subset (List.mem_map_of_mem (f := Prod.snd) (Map.get?_eq_some.1 haddr)))
  obtain ⟨top, bottom, hinsts⟩ := List.append_of_mem hi
  have hlist := hblock.list
  rw [hinsts, List.map_append, List.map_cons] at hlist
  have hnodup := hwf.nodup bb
  rw [hlist] at hnodup
  have htop : ρ i.id ∉ top.map fun i => ρ i.id := fun hmem =>
    (List.nodup_append.1 hnodup).2.2 _ hmem _ List.mem_cons_self rfl
  have hne : ∀ j ∈ top, j.id ≠ i.id := fun j hj heq =>
    htop (List.mem_map.2 ⟨j, hj, congrArg ρ heq⟩)
  obtain ⟨c, hc, H⟩ := b.split_spec bb addr haddr hinsts hne (Nat.ne_of_lt hlt)
    fun kind hterm => h.nextBlock ▸ hblock.succs hwf hterm
  obtain ⟨t, ht, G⟩ :=
    State.split_halves hwf htracked.lt (hblock.get? haddr) hlist htop h.insertBlock
  obtain ⟨n, hn, hnlt, -, hold⟩ := H.old
  obtain ⟨br, -, -, hbr, hupper⟩ := G.upper
  -- The branches are one, by different names.
  have hρ : ∀ i, i < b.nextInstr → Function.update ρ n br i = ρ i := fun i hi =>
    Function.update_of_ne (Nat.ne_of_lt (Nat.lt_of_lt_of_le hi hn)) _ _
  have hself : Function.update ρ n br n = br := Function.update_self _ _ _
  refine ⟨t, c, Function.update ρ n br, h.nextBlock ▸ ht, hc, hρ, fun b' => ?_, ?_, ?_⟩
  · by_cases hb : b' = bb
    · rw [hb, hold, ← h.nextBlock]
      exact hblock.upper hwf htracked.lt G hinsts rfl hρ H.nextInstr rfl hnlt
        (hself.symm ▸ hbr) (hself.symm ▸ hupper)
    · by_cases hnb : b' = b.nextBlock
      · rw [hnb, H.new, ← h.nextBlock]
        exact hblock.lower hwf G hinsts rfl hρ H.nextInstr
      · rw [H.other b' hb hnb]
        have hnb : b' ≠ s.nextBlock := h.nextBlock ▸ hnb
        exact (h.blocks b').mono hwf (G.other b' hb hnb) (G.otherBB hb hnb) G.instrs hρ H.nextInstr
  · rw [G.nextBlock, H.nextBlock, h.nextBlock]
  · rw [G.insertBlock, H.insert, h.insertBlock]

end RiscvSbt.Splitting
