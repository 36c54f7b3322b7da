import RiscvSbt.Block.Invariant

/-! Splitting keeps the invariant.

A jump back into translated code cuts the block that holds the target. The upper half is
sealed by its branch to the lower half; the lower half is whatever the block was before,
and the main block if that was the one cut. -/
namespace RiscvSbt.Block
open Library State

variable {opts : Options} {body : Nat → Inst} {n st : Nat} {bad : Nat → Prop} {s t : State}
  {addr main k tgt : Nat} {l : List Instr}

/-- The state after a split, with the new block in the map. -/
theorem State.Halves.frame {bb : Nat} {top bottom : List Instr}
    (hh : Halves s bb tgt top bottom t) (h : Heap n s) (hnone : s.findBB tgt = none) :
    Frame n (· = bb) s (t.addBB tgt s.nextBlock) where
  find k b hk := by
    rw [addBB_find, if_neg]
    · show t.func.bbMap.get? k = some b
      rw [hh.func]
      exact hk
    · rintro rfl
      rw [hnone] at hk
      exact nomatch hk
  ubbs a b hb := by
    show b ∈ (t.func.ubbMap.get? a).getD []
    rw [hh.func]
    exact hb
  bbs b hb hB := hh.other b hB (Nat.ne_of_lt hb)
  nextBlock := by
    show s.nextBlock ≤ t.nextBlock
    rw [hh.nextBlock]
    exact Nat.le_succ _
  marks b hn hb _ i hi := hh.marks _ (h.ids b hn hb i hi)

theorem State.Halves.find {bb : Nat} {top bottom : List Instr}
    (hh : Halves s bb tgt top bottom t) (k' : Nat) :
    (t.addBB tgt s.nextBlock).findBB k' = if k' = tgt then some s.nextBlock else s.findBB k' := by
  rw [addBB_find]
  show (if k' = tgt then _ else t.func.bbMap.get? k') = _
  rw [hh.func]
  rfl

theorem State.Halves.ubbs_eq {bb : Nat} {top bottom : List Instr}
    (hh : Halves s bb tgt top bottom t) (a : Nat) :
    (t.addBB tgt s.nextBlock).ubbs a = s.ubbs a := by
  show (t.func.ubbMap.get? a).getD [] = _
  rw [hh.func]
  rfl

/-- A cut in the code of a block: the instructions above the target, the target's first
one, those below it and what follows the code. -/
structure Cut (opts : Options) (body : Nat → Inst) (n : Nat) (s : State) (kb bb tgt e : Nat)
    (top : List Instr) (i : Instr) (bottom rest : List Instr) : Prop where
  heap : Heap n s
  find : s.findBB kb = some bb
  fresh : s.findBB tgt = none
  lt : kb < tgt
  sep : ∀ c, HasBB s c → c ≤ kb ∨ e ≤ c
  ahead : tgt < e
  insts : (s.bbs bb).insts = top ++ i :: (bottom ++ rest)
  straight : Straight top
  upper : Code opts body s kb top tgt
  lower : Code opts body s tgt (i :: bottom) e
  recorded : Recorded s bb (top ++ i :: bottom)
  mark : s.marks i.id = some tgt

namespace Cut
variable {kb bb e : Nat} {top : List Instr} {i : Instr} {bottom rest : List Instr}

theorem own (c : Cut opts body n s kb bb tgt e top i bottom rest) :
    n ≤ bb ∧ bb < s.nextBlock :=
  ⟨(c.heap.tracked kb bb c.find).1, (c.heap.tracked kb bb c.find).2.1⟩

theorem mem_top (c : Cut opts body n s kb bb tgt e top i bottom rest) :
    ∀ x ∈ top, x ∈ (s.bbs bb).insts := fun x hx => by
  rw [c.insts]
  exact List.mem_append_left _ hx

theorem mem_bottom (c : Cut opts body n s kb bb tgt e top i bottom rest) :
    ∀ x ∈ i :: bottom, x ∈ (s.bbs bb).insts := fun x hx => by
  rw [c.insts, ← List.cons_append]
  exact List.mem_append_right _ (List.mem_append_left _ hx)

/-- The split succeeds. -/
theorem split (c : Cut opts body n s kb bb tgt e top i bottom rest)
    (hsuccs : ∀ kind, terminator (s.bbs bb).insts = some kind → s.nextBlock ∉ kind.succs) :
    ∃ t, s.split bb tgt = .ok (s.nextBlock, t) ∧
      Halves s bb tgt top (i :: (bottom ++ rest)) t := by
  refine s.split_spec bb tgt ?_ c.insts (fun j hj heq => ?_) (Nat.ne_of_lt c.own.2) hsuccs
  · rw [c.recorded]
    exact ⟨i, by simp, rfl, c.mark⟩
  · have hm : s.marks j.id = some tgt := by rw [heq, c.mark]
    have := (c.upper.marked.mp ⟨j, hj, hm⟩).2.1
    exact absurd this (lt_irrefl _)

theorem marks (c : Cut opts body n s kb bb tgt e top i bottom rest) {bot : List Instr}
    (hh : Halves s bb tgt top bot t) : ∀ x ∈ (s.bbs bb).insts, t.marks x.id = s.marks x.id :=
  fun x hx => hh.marks _ (c.heap.ids bb c.own.1 c.own.2 x hx)

variable (c : Cut opts body n s kb bb tgt e top i bottom rest)
  (hh : Halves s bb tgt top (i :: (bottom ++ rest)) t)

include c hh

theorem upper_after : Code opts body (t.addBB tgt s.nextBlock) kb
    ((t.addBB tgt s.nextBlock).bbs bb).insts tgt := by
  obtain ⟨j, -, -, hj, hold⟩ := hh.old
  have f := hh.frame c.heap c.fresh
  show Code _ _ _ kb (t.bbs bb).insts tgt
  rw [hold]
  refine Code.append c.straight (c.upper.grow f.toGrows fun x hx => ?_) ?_
  · exact c.marks hh x (c.mem_top x hx)
  · exact .glue hj rfl (by rw [hh.find, if_pos rfl])

theorem lower_after : Code opts body (t.addBB tgt s.nextBlock) tgt (i :: bottom) e := by
  have f := hh.frame c.heap c.fresh
  refine c.lower.grow f.toGrows fun x hx => ?_
  exact c.marks hh x (c.mem_bottom x hx)

theorem sep_after (c' : Nat) (hc : HasBB (t.addBB tgt s.nextBlock) c') : c' ≤ kb ∨ tgt ≤ c' := by
  obtain ⟨b, hb⟩ := hc
  rw [hh.find] at hb
  split at hb
  next heq => exact .inr (le_of_eq heq.symm)
  next =>
    have := c.ahead
    rcases c.sep c' ⟨b, hb⟩ with h | h
    · exact .inl h
    · exact .inr (by omega)

theorem sealed_upper (hle : tgt ≤ addr) :
    Sealed opts body (t.addBB tgt s.nextBlock) addr kb bb := by
  obtain ⟨j, -, -, -, hold⟩ := hh.old
  refine ⟨?_, tgt, c.upper_after hh, c.lt, hle, ⟨s.nextBlock, by rw [hh.find, if_pos rfl]⟩,
    c.sep_after hh⟩
  show (terminator (t.bbs bb).insts).isSome
  rw [hold, terminator_append]
  rfl

theorem recorded_upper : Recorded (t.addBB tgt s.nextBlock) bb
    ((t.addBB tgt s.nextBlock).bbs bb).insts := by
  obtain ⟨j, hj, -, hjm, hold⟩ := hh.old
  intro a x
  show (t.bbs bb).instrMap.get? a = some x ↔ ∃ y ∈ (t.bbs bb).insts, y.id = x ∧ t.marks x = some a
  rw [hold]
  simp only [Map.get?_erase]
  have hmark := c.marks hh
  constructor
  · intro hx
    split at hx
    next hlt =>
      obtain ⟨y, hy, rfl, hm⟩ := (c.recorded a x).mp hx
      rcases List.mem_append.mp hy with hy | hy
      · exact ⟨y, List.mem_append_left _ hy, rfl, (hmark y (c.mem_top y hy)).trans hm⟩
      · have := (c.lower.marked.mp ⟨y, hy, hm⟩).1
        omega
    next => exact nomatch hx
  · rintro ⟨y, hy, rfl, hm⟩
    rcases List.mem_append.mp hy with hy | hy
    · rw [hmark y (c.mem_top y hy)] at hm
      rw [if_pos (c.upper.marked.mp ⟨y, hy, hm⟩).2.1, c.recorded]
      exact ⟨y, List.mem_append_left _ hy, rfl, hm⟩
    · rw [List.mem_singleton.mp hy, hjm] at hm
      exact nomatch hm

theorem recorded_lower : Recorded (t.addBB tgt s.nextBlock) s.nextBlock (i :: bottom) := by
  intro a x
  show (t.bbs s.nextBlock).instrMap.get? a = some x ↔ ∃ y ∈ i :: bottom,
    y.id = x ∧ t.marks x = some a
  rw [hh.new]
  simp only [Map.get?_suffix]
  have hmark := c.marks hh
  constructor
  · intro hx
    split at hx
    next hle =>
      obtain ⟨y, hy, rfl, hm⟩ := (c.recorded a x).mp hx
      rcases List.mem_append.mp hy with hy | hy
      · have := (c.upper.marked.mp ⟨y, hy, hm⟩).2.1
        omega
      · exact ⟨y, hy, rfl, (hmark y (c.mem_bottom y hy)).trans hm⟩
    next => exact nomatch hx
  · rintro ⟨y, hy, rfl, hm⟩
    rw [hmark y (c.mem_bottom y hy)] at hm
    rw [if_pos (c.lower.marked.mp ⟨y, hy, hm⟩).1, c.recorded]
    exact ⟨y, List.mem_append_right _ hy, rfl, hm⟩

/-- The other blocks keep what they had. -/
theorem rest_after {k' b : Nat} (hb : s.findBB k' = some b) (hne : k' ≠ kb)
    (hkb : HasBB s kb)
    (h : Recorded s b (s.bbs b).insts ∧
      (Sealed opts body s addr k' b ∨ (addr < k' ∧ (s.bbs b).insts = []))) :
    Recorded (t.addBB tgt s.nextBlock) b ((t.addBB tgt s.nextBlock).bbs b).insts ∧
      (Sealed opts body (t.addBB tgt s.nextBlock) addr k' b ∨
        (addr < k' ∧ ((t.addBB tgt s.nextBlock).bbs b).insts = [])) := by
  have f := hh.frame c.heap c.fresh
  obtain ⟨hn, hlt, -⟩ := c.heap.tracked k' b hb
  have hB : ¬ b = bb := c.heap.find_ne hb c.find hne
  have hbbs := f.bbs b hlt hB
  refine ⟨?_, ?_⟩
  · rw [hbbs]
    exact h.1.keep (by rw [hbbs]) (f.marks b hn hlt hB)
  · rcases h.2 with hs | ⟨hk, hnil⟩
    · refine .inl (hs.frame f c.heap hb hB fun e' hbb he' hsep c' hc => ?_)
      obtain ⟨b', hb'⟩ := hc
      rw [hh.find] at hb'
      split at hb'
      next heq =>
        -- The new key lies between two neighbours other than `k'` and `e'`.
        have := c.lt
        have := c.ahead
        rcases hsep kb hkb with h₁ | h₁
        · rcases c.sep k' ⟨b, hb⟩ with h₂ | h₂
          · exact absurd (le_antisymm h₂ h₁) hne
          · exact .inl (by omega)
        · exact .inr (by omega)
      next => exact hsep c' ⟨b', hb'⟩
    · exact .inr ⟨hk, by rw [hbbs, hnil]⟩

end Cut

/-! ### The successors of a block -/

theorem Term.succs_lt (h : Heap n s) {a : Nat} {kind : Kind} (ht : Term opts body s a kind) :
    ∀ z ∈ kind.succs, z < s.nextBlock := by
  cases ht with
  | branch act target next =>
    intro z hz
    rcases List.mem_pair.mp hz with rfl | rfl
    · exact (h.tracked _ _ target).2.1
    · exact (h.tracked _ _ next).2.1
  | jump act target =>
    intro z hz
    rw [List.mem_singleton.mp hz]
    exact (h.tracked _ _ target).2.1
  | ret act => exact fun _ hz => nomatch hz
  | ijump act => exact fun _ hz => nomatch hz
  | leave act hu hv =>
    intro z hz
    rcases List.mem_pair.mp hz with rfl | rfl
    · exact (h.helper _ _ hu).2.1
    · exact (h.helper _ _ hv).2.1

theorem Code.succs_lt (h : Heap n s) {a e : Nat} (hc : Code opts body s a l e) {kind : Kind}
    (hk : terminator l = some kind) : ∀ z ∈ kind.succs, z < s.nextBlock := by
  rcases hc.straight_or with hs | ⟨m, i, rfl, -, hi, hterm⟩
  · rw [hs.terminator] at hk
    exact nomatch hk
  · rw [terminator_append, hi, if_pos rfl] at hk
    obtain rfl := Option.some.inj hk
    rcases hterm with ⟨b, hb, hfind, -⟩ | ⟨c, -, ht⟩
    · intro z hz
      rw [hb] at hz
      rw [List.mem_singleton.mp hz]
      exact (h.tracked _ _ hfind).2.1
    · exact ht.succs_lt h

theorem Code.not_succ (h : Heap n s) {a e : Nat} (hc : Code opts body s a l e) :
    ∀ kind, terminator l = some kind → s.nextBlock ∉ kind.succs :=
  fun _ hk hmem => lt_irrefl _ (hc.succs_lt h hk _ hmem)

/-! ### Cutting the blocks of the invariant -/

namespace Work
variable {kb bb : Nat}

/-- The main block cut at an address of its code. -/
theorem cut_main (h : Work opts body n st bad s addr main k l) {rest : List Instr}
    (hinsts : (s.bbs main).insts = l ++ rest) (hk : k < tgt) (ha : tgt < addr)
    (hmod : tgt % 4 = 0) :
    ∃ top i bottom, l = top ++ i :: bottom ∧
      Cut opts body n s k main tgt addr top i bottom rest := by
  have hkmod := (h.bounds k ⟨main, h.key⟩).2
  obtain ⟨top, i, bottom, rfl, hi, hs, hu, hl⟩ := h.code.cut (le_of_lt hk) ha (by omega)
  refine ⟨top, i, bottom, rfl, h.heap, h.key, ?_, hk, fun c hc => ?_, ha, ?_, hs, hu, hl,
    h.recorded, hi⟩
  · by_contra hne
    obtain ⟨b, hb⟩ := Option.ne_none_iff_exists'.mp hne
    rcases h.gap tgt ⟨b, hb⟩ with hle | hle
    · omega
    · omega
  · rcases h.gap c hc with hle | hle
    · exact .inl hle
    · exact .inr (le_of_lt hle)
  · rw [hinsts, List.append_assoc, List.cons_append]

/-- Another block cut at an address of its code. -/
theorem cut_other (h : Work opts body n st bad s addr main k l) (hkb : s.findBB kb = some bb)
    (hne : kb ≠ k) (hk : kb < tgt) (hmax : ∀ c, HasBB s c → c ≤ tgt → c ≤ kb) (ha : tgt < addr)
    (hmod : tgt % 4 = 0) :
    ∃ top i bottom e, (s.bbs bb).insts = top ++ i :: bottom ∧ e ≤ addr ∧ HasBB s e ∧
      Cut opts body n s kb bb tgt e top i bottom [] := by
  obtain ⟨hrec, hrest⟩ := h.rest kb bb hkb hne
  have hkmod := (h.bounds kb ⟨bb, hkb⟩).2
  rcases hrest with hs | ⟨hlt, -⟩
  · obtain ⟨e, hcode, hke, hle, hbb, hsep⟩ := hs.code
    have hte : tgt < e := by
      by_contra hte
      have := hmax e hbb (by omega)
      omega
    obtain ⟨top, i, bottom, heq, hi, hst, hu, hl⟩ := hcode.cut (le_of_lt hk) hte (by omega)
    refine ⟨top, i, bottom, e, heq, hle, hbb, h.heap, hkb, ?_, hk, hsep, hte, ?_, hst, hu, hl, ?_,
      hi⟩
    · by_contra hne
      obtain ⟨b, hb⟩ := Option.ne_none_iff_exists'.mp hne
      have := hmax tgt ⟨b, hb⟩ (le_refl _)
      omega
    · rw [heq, List.append_nil]
    · rw [← heq]
      exact hrec
  · omega

/-- The keys after a split are the old ones and the target. -/
theorem keys_after {top bottom : List Instr} (h : Work opts body n st bad s addr main k l)
    (hh : Halves s bb tgt top bottom t) (hst : st ≤ tgt) (hmod : tgt % 4 = 0) (c : Nat)
    (hc : HasBB (t.addBB tgt s.nextBlock) c) : st ≤ c ∧ c % 4 = 0 := by
  obtain ⟨b, hb⟩ := hc
  rw [hh.find] at hb
  split at hb
  next heq => rw [heq]; exact ⟨hst, hmod⟩
  next => exact h.bounds c ⟨b, hb⟩

/-- **Splitting the main block**, whose lower half becomes the main block. -/
theorem split_main (h : Work opts body n st bad s addr main k l) {top bottom rest : List Instr}
    {i : Instr} (c : Cut opts body n s k main tgt addr top i bottom rest)
    (hh : Halves s main tgt top (i :: (bottom ++ rest)) t) (hst : st ≤ tgt) (hmod : tgt % 4 = 0)
    (hs : Straight (i :: bottom)) :
    Work opts body n st bad (t.addBB tgt s.nextBlock) addr s.nextBlock tgt (i :: bottom) := by
  have f := hh.frame c.heap c.fresh
  have hheap := h.heap.halves h.key c.insts c.fresh hh
  have hnew : (t.addBB tgt s.nextBlock).findBB tgt = some s.nextBlock := by
    rw [hh.find, if_pos rfl]
  refine ⟨hheap, h.keys_after hh hst hmod, h.entry.grow f.toGrows,
    hnew, le_of_lt c.ahead, fun c' hc => ?_, ?_, c.lower_after hh, hs, c.recorded_lower hh,
    fun k' b hb hne => ?_, fun a ha hlt hm hact => ?_, fun a b hb => ?_⟩
  · obtain ⟨b, hb⟩ := hc
    rw [hh.find] at hb
    split at hb
    next heq => exact .inl (le_of_eq heq)
    next =>
      have := c.lt
      rcases h.gap c' ⟨b, hb⟩ with hle | hle
      · exact .inl (by omega)
      · exact .inr hle
  · show i :: bottom <+: (t.bbs s.nextBlock).insts
    rw [hh.new]
    exact ⟨rest, rfl⟩
  · rw [hh.find, if_neg hne] at hb
    by_cases hk : k' = k
    · subst hk
      obtain rfl : main = b := Option.some.inj (h.key.symm.trans hb)
      exact ⟨c.recorded_upper hh, .inl (c.sealed_upper hh (le_of_lt c.ahead))⟩
    · exact c.rest_after hh hb hk ⟨main, h.key⟩ (h.rest k' b hb hk)
  · refine (h.exits a ha hlt hm hact).frame f h.heap (fun b hb => ?_) (fun y hy hym => ?_)
      fun y hy hne => ?_
    · rw [← hh.ubbs_eq]
      exact hb
    · exact h.heap.find_ubbs h.key (hym ▸ hy)
    · show y ≠ t.bld.insertBlock
      rw [hh.insert]
      exact hne
  · refine h.helpers a b ?_
    rw [← hh.ubbs_eq]
    exact hb

/-- **Splitting another block.** -/
theorem split_other (h : Work opts body n st bad s addr main k l) {e : Nat}
    {top bottom : List Instr} {i : Instr} (c : Cut opts body n s kb bb tgt e top i bottom [])
    (hh : Halves s bb tgt top (i :: (bottom ++ [])) t) (hne : kb ≠ k) (hle : e ≤ addr)
    (hbb : HasBB s e) (hst : st ≤ tgt) (hmod : tgt % 4 = 0)
    (hterm : (terminator (i :: bottom)).isSome) :
    Work opts body n st bad (t.addBB tgt s.nextBlock) addr main k l ∧
      ((t.addBB tgt s.nextBlock).bbs main) = s.bbs main := by
  have f := hh.frame c.heap c.fresh
  have hheap := h.heap.halves c.find c.insts c.fresh hh
  have hlt := c.ahead
  have hnew : (t.addBB tgt s.nextBlock).findBB tgt = some s.nextBlock := by
    rw [hh.find, if_pos rfl]
  obtain ⟨hn, hlt', -⟩ := h.heap.tracked k main h.key
  have hB : ¬ main = bb := h.heap.find_ne h.key c.find hne.symm
  have hmain : (t.addBB tgt s.nextBlock).bbs main = s.bbs main := f.bbs main hlt' hB
  refine ⟨⟨hheap, h.keys_after hh hst hmod, h.entry.grow f.toGrows, f.find _ _ h.key, h.le,
    fun c' hc => ?_, ?_, h.code.grow f.toGrows fun x hx => ?_, h.straight, ?_,
    fun k' b hb hne' => ?_, fun a ha hlt hm hact => ?_, fun a b hb => ?_⟩, hmain⟩
  · obtain ⟨b, hb⟩ := hc
    rw [hh.find] at hb
    split at hb
    next heq =>
      -- The target lies in a block that is not the main one.
      rcases c.sep k ⟨main, h.key⟩ with hk | hk
      · rcases h.gap kb ⟨bb, c.find⟩ with hk' | hk'
        · omega
        · have := c.lt
          omega
      · exact .inl (by omega)
    next => exact h.gap c' ⟨b, hb⟩
  · rw [hmain]
    exact h.pre
  · exact f.marks main hn hlt' hB x (h.pre.subset hx)
  · exact h.recorded.keep (by rw [hmain]) fun x hx => f.marks main hn hlt' hB x (h.pre.subset hx)
  · rw [hh.find] at hb
    split at hb
    next heq =>
      obtain rfl := Option.some.inj hb
      subst heq
      have hinsts : ((t.addBB k' s.nextBlock).bbs s.nextBlock).insts = i :: bottom := by
        show (t.bbs s.nextBlock).insts = _
        rw [hh.new, List.append_nil]
      refine ⟨?_, .inl ⟨?_, e, ?_, hlt, hle, hbb.grow f.toGrows, fun c' hc => ?_⟩⟩
      · rw [hinsts]
        exact c.recorded_lower hh
      · rw [hinsts]
        exact hterm
      · rw [hinsts]
        exact c.lower_after hh
      · obtain ⟨b, hb⟩ := hc
        rw [hh.find] at hb
        have := c.lt
        split at hb
        next heq => exact .inl (le_of_eq heq)
        next =>
          rcases c.sep c' ⟨b, hb⟩ with h₁ | h₁
          · exact .inl (by omega)
          · exact .inr h₁
    next =>
      by_cases hk : k' = kb
      · subst hk
        obtain rfl : bb = b := Option.some.inj (c.find.symm.trans hb)
        exact ⟨c.recorded_upper hh, .inl (c.sealed_upper hh (by omega))⟩
      · exact c.rest_after hh hb hk ⟨bb, c.find⟩ (h.rest k' b hb hne')
  · refine (h.exits a ha hlt hm hact).frame f h.heap (fun b hb => ?_) (fun y hy hym => ?_)
      fun y hy hne => ?_
    · rw [← hh.ubbs_eq]
      exact hb
    · exact h.heap.find_ubbs c.find (hym ▸ hy)
    · show y ≠ t.bld.insertBlock
      rw [hh.insert]
      exact hne
  · refine h.helpers a b ?_
    rw [← hh.ubbs_eq]
    exact hb

end Work
end RiscvSbt.Block
