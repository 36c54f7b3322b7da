import RiscvSbt.Splitting.Pieces

/-! What a split leaves.

`Divided` is the whole effect: of all that is done for LLVM's sake nothing remains. -/
namespace RiscvSbt.Splitting
open Library

namespace State
variable {s t : State} {bb addr tgt : Nat}

/-- Every name is in use. -/
structure WellFormed (s : State) : Prop where
  lists : ∀ bb, ∀ i ∈ s.lists bb, i < s.nextInstr
  succs : ∀ i, i < s.nextInstr → ∀ bb ∈ (s.instrs i).succs, bb < s.nextBlock
  nodup : ∀ bb, (s.lists bb).Nodup

/-- A block whose map records instructions of its own, in their order. -/
structure Tracked (s : State) (bb : Nat) : Prop where
  lt : bb < s.nextBlock
  recorded : ((s.bbs bb).instrMap.data.map Prod.snd).Sublist (s.lists bb)

/-! ### The pieces left over -/

theorem getTerminator_append {l : List Nat} {i : Nat} (hlist : s.lists bb = l ++ [i]) :
    s.getTerminator bb = if (s.instrs i).isTerminator then some i else none := by
  unfold getTerminator
  rw [hlist, List.getLast?_concat]
  rfl

theorem getTerminator_mem {term : Nat} (h : s.getTerminator bb = some term) : term ∈ s.lists bb :=
  List.mem_of_getLast? (Option.filter_eq_some_iff.1 h).1

theorem succIterators_valid (hwf : s.WellFormed) (bb : Nat) :
    ∀ it ∈ s.succIterators bb, s.Valid it := by
  unfold succIterators
  cases hterm : s.getTerminator bb with
  | none => exact fun it h => nomatch h
  | some term =>
    rintro it hit
    obtain ⟨idx, hidx, rfl⟩ := List.mem_map.1 hit
    have hidx := List.mem_range.1 hidx
    refine ⟨hwf.lists bb term (getTerminator_mem hterm), (s.instrs term).succs[idx], ?_⟩
    unfold deref
    rw [List.getElem?_eq_getElem hidx]
    rfl

theorem points_succIterators {term : Nat} (hterm : s.getTerminator bb = some term) {b : Nat} :
    s.Points (s.succIterators bb) b ↔ b ∈ (s.instrs term).succs := by
  unfold Points succIterators
  simp only [hterm, List.mem_map, List.mem_range]
  constructor
  · rintro ⟨it, ⟨idx, hidx, rfl⟩, hderef⟩
    unfold deref at hderef
    rw [List.getElem?_eq_getElem hidx] at hderef
    exact Except.ok.inj hderef ▸ List.getElem_mem hidx
  · intro hmem
    obtain ⟨idx, hidx, rfl⟩ := List.getElem_of_mem hmem
    refine ⟨⟨term, idx⟩, ⟨idx, hidx, rfl⟩, ?_⟩
    unfold deref
    rw [List.getElem?_eq_getElem hidx]
    rfl

theorem points_lt (hwf : s.WellFormed) {b : Nat} (h : s.Points (s.succIterators bb) b) :
    b < s.nextBlock := by
  cases hterm : s.getTerminator bb with
  | none =>
    obtain ⟨it, hit, -⟩ := h
    simp only [succIterators, hterm] at hit
    cases hit
  | some term =>
    exact hwf.succs term (hwf.lists bb term (getTerminator_mem hterm)) b
      ((points_succIterators hterm).1 h)

/-- A missing terminator is put at the end. -/
structure Terminated (s : State) (bb : Nat) (instr : Option Nat) (t : State) : Prop where
  kept : Kept s t
  list : t.lists bb = s.lists bb ++ instr.toList
  other : ∀ b, b ≠ bb → t.lists b = s.lists b
  fresh : ∀ i ∈ instr, s.nextInstr ≤ i ∧ i < t.nextInstr
  term : ∃ term, t.getTerminator bb = some term ∧
    (instr = none → s.getTerminator bb = some term) ∧ (instr ≠ none → (t.instrs term).succs = [])

theorem terminate_eq {bb₀ : Ref} (hbb : s.bld.bb = some bb₀) (bb : Nat) :
    ∃ instr t, s.terminate bb (s.getTerminator bb) = .ok (instr, t) ∧ Terminated s bb instr t := by
  cases hterm : s.getTerminator bb with
  | some term =>
    refine ⟨none, s, rfl, Kept.refl s, (List.append_nil _).symm, fun _ _ => rfl, ?_, term, hterm,
      fun _ => hterm, fun h => absurd rfl h⟩
    exact fun i h => nomatch h
  | none =>
    obtain ⟨t, hdummy, hkept, hnext, hop, hlists⟩ := dummyRet_eq hbb (.of bb)
    have hlist : t.lists bb = s.lists bb ++ [s.nextInstr] := by
      rw [hlists]
      exact Function.update_self _ _ _
    refine ⟨some s.nextInstr, t, ?_, hkept, hlist, fun b hb => ?_, fun i hi => ?_, s.nextInstr, ?_,
      (fun h => nomatch h), fun _ => ?_⟩
    · simp only [terminate, hdummy, bind, Except.bind]
      rfl
    · rw [hlists]
      exact Function.update_of_ne hb _ _
    · obtain rfl := Option.mem_some.1 hi
      exact ⟨Nat.le_refl _, hnext ▸ Nat.lt_succ_self _⟩
    · rw [getTerminator_append hlist, hop]
      rfl
    · rw [hop]
      rfl

theorem span_of_notMem {top : List Nat} (htop : tgt ∉ top) (bottom : List Nat) :
    (top ++ tgt :: bottom).span (· ≠ tgt) = (top, tgt :: bottom) := by
  have hne : ∀ i ∈ top, decide (i ≠ tgt) = true := by
    intro i hi
    exact decide_eq_true fun h => htop (h ▸ hi)
  rw [List.span_eq_takeWhile_dropWhile, List.takeWhile_append_of_pos hne,
    List.dropWhile_append_of_pos hne, List.takeWhile_cons_of_neg (by simp),
    List.dropWhile_cons_of_neg (by simp), List.append_nil]

/-- The two halves, where LLVM can split. -/
theorem splitBasicBlock_eq {top bottom : List Nat} (hlist : s.lists bb = top ++ tgt :: bottom)
    (htop : tgt ∉ top) {term : Nat} (hterm : s.getTerminator bb = some term)
    (hsuccs : ∀ b ∈ (s.instrs term).succs, b ≠ bb → b ≠ s.nextBlock ∧ s.lists b ≠ []) :
    s.splitBasicBlock bb tgt = .ok (s.nextBlock, { s with
      instrs := Function.update s.instrs s.nextInstr (.br s.nextBlock)
      nextInstr := s.nextInstr + 1
      lists := Function.update (Function.update s.lists s.nextBlock (tgt :: bottom)) bb
        (top ++ [s.nextInstr])
      nextBlock := s.nextBlock + 1 }) := by
  have hnone : (s.instrs term).succs.any (fun b => Function.update
      (Function.update s.lists s.nextBlock (tgt :: bottom)) bb (top ++ [s.nextInstr]) b = []) =
      false := by
    rw [List.any_eq_false]
    intro b hb hnil
    have hnil := of_decide_eq_true hnil
    by_cases hbb : b = bb
    · -- A loop: the block has the new branch at least.
      rw [hbb, Function.update_self] at hnil
      simp at hnil
    · obtain ⟨hnew, hfull⟩ := hsuccs b hb hbb
      rw [Function.update_of_ne hbb, Function.update_of_ne hnew] at hnil
      exact hfull hnil
  simp only [splitBasicBlock, hterm, hlist, span_of_notMem htop bottom]
  rw [if_neg (List.cons_ne_nil _ _), hnone]
  rfl

theorem eraseDummy_lists {instr : Option Nat} {l : List Nat} (hl : ∀ i ∈ instr, i ∉ l) (b : Nat)
    (hlist : s.lists b = l ∨ s.lists b = l ++ instr.toList) : (s.eraseDummy instr).lists b = l := by
  cases instr with
  | none =>
    rcases hlist with hlist | hlist
    · exact hlist
    · exact hlist.trans (List.append_nil l)
  | some i =>
    have hne : ∀ j ∈ l, decide (j ≠ i) = true := by
      intro j hj
      exact decide_eq_true fun h => hl i rfl (h ▸ hj)
    show (s.lists b).filter (· ≠ i) = l
    rcases hlist with hlist | hlist
    · rw [hlist]
      exact List.filter_eq_self.2 hne
    · rw [hlist, List.filter_append, List.filter_eq_self.2 hne]
      simp

theorem eraseDummy_eq (s : State) (instr : Option Nat) :
    s.eraseDummy instr = {s with lists := (s.eraseDummy instr).lists} := by
  cases instr <;> rfl

theorem Kept.getTerminator (h : Kept s t) (hwf : s.WellFormed) (hlist : t.lists bb = s.lists bb) :
    t.getTerminator bb = s.getTerminator bb := by
  unfold State.getTerminator
  rw [hlist]
  cases hlast : (s.lists bb).getLast? with
  | none => rfl
  | some i =>
    have hi := h.instrs i (hwf.lists bb i (List.mem_of_getLast? hlast))
    rw [Option.filter_some, Option.filter_some, hi]

/-- LLVM finds a terminator, and no empty successor. -/
theorem Terminated.succs {s₁ : State} {empty : List SuccIterator} {instr : Option Nat}
    (hT : Terminated s₁ bb instr t) (hfilled : Filled s (s.succIterators bb) empty s₁)
    (hwf : s.WellFormed) (hterm₁ : s₁.getTerminator bb = s.getTerminator bb) :
    ∃ term, t.getTerminator bb = some term ∧
      ∀ b ∈ (t.instrs term).succs, b ≠ bb → b ≠ t.nextBlock ∧ t.lists b ≠ [] := by
  have hkept := hfilled.kept.trans hT.kept
  obtain ⟨term, hterm, hold, hdummy⟩ := hT.term
  refine ⟨term, hterm, fun b hb hne => ?_⟩
  by_cases hnone : instr = none
  · have hterm := hterm₁ ▸ hold hnone
    have hmem := hwf.lists bb term (getTerminator_mem hterm)
    rw [hkept.instrs term hmem] at hb
    refine ⟨?_, ?_⟩
    · rw [hkept.nextBlock]
      exact Nat.ne_of_lt (hwf.succs term hmem b hb)
    · rw [hT.other b hne]
      exact hfilled.full b ((points_succIterators hterm).2 hb)
  · rw [hdummy hnone] at hb
    cases hb

/-- The dummies are removed, wherever the terminator that the iterators hold is by now. -/
theorem clear_dummies (hinstrs : ∀ i, i < s.nextInstr → t.instrs i = s.instrs i)
    (hnext : s.nextInstr ≤ t.nextInstr) {empty : List SuccIterator}
    (hvalid : ∀ it ∈ empty, s.Valid it) (instr : Option Nat) :
    ∃ lists, (t.eraseDummy instr).clear empty = .ok {t with lists} ∧
      (∀ b, s.Points empty b → lists b = []) ∧
      ∀ b, ¬ s.Points empty b → lists b = (t.eraseDummy instr).lists b := by
  have hderef : ∀ it ∈ empty, (t.eraseDummy instr).deref it = s.deref it := by
    intro it hit
    refine deref_congr ?_
    rw [eraseDummy_eq]
    exact hinstrs _ (hvalid it hit).1
  have hpoints : ∀ b, (t.eraseDummy instr).Points empty b ↔ s.Points empty b := fun b =>
    exists_congr fun it => and_congr_right fun hit => by rw [hderef it hit]
  have hvalid' : ∀ it ∈ empty, (t.eraseDummy instr).Valid it := by
    intro it hit
    refine ⟨?_, ?_⟩
    · rw [eraseDummy_eq]
      exact Nat.lt_of_lt_of_le (hvalid it hit).1 hnext
    · rw [hderef it hit]
      exact (hvalid it hit).2
  obtain ⟨lists, hclear, hnil, hother⟩ := clear_eq hvalid'
  refine ⟨lists, ?_, fun b hb => hnil b ((hpoints b).2 hb), fun b hb => ?_⟩
  · rw [hclear, eraseDummy_eq]
  · exact hother b fun h => hb ((hpoints b).1 h)

/-! ### The run -/

/-- Where a split comes to. The dummies have used up names; otherwise there are the halves. -/
theorem split_run (hwf : s.WellFormed) (hlt : bb < s.nextBlock)
    (haddr : (s.bbs bb).instrMap.get? addr = some tgt) {top bottom : List Nat}
    (hlist : s.lists bb = top ++ tgt :: bottom) (htop : tgt ∉ top) {bb₀ : Ref}
    (hbb : s.bld.bb = some bb₀) :
    ∃ s₂ lists, Kept s s₂ ∧
      s.split bb addr = .ok (s.nextBlock, { s₂ with
        instrs := Function.update s₂.instrs s₂.nextInstr (.br s.nextBlock)
        nextInstr := s₂.nextInstr + 1
        lists
        nextBlock := s.nextBlock + 1 : State }.divideMap bb s.nextBlock addr) ∧
      lists bb = top ++ [s₂.nextInstr] ∧ lists s.nextBlock = tgt :: bottom ∧
      ∀ b, b ≠ bb → b ≠ s.nextBlock → lists b = s.lists b := by
  have hfull : s.lists bb ≠ [] := by
    rw [hlist]
    simp
  -- The dummies in the empty successors, of which the block itself is none.
  obtain ⟨empty, s₁, hadd, hfilled⟩ := addDummies_eq (succIterators_valid hwf bb) hbb
  have hvalid : ∀ it ∈ empty, s.Valid it := fun it h =>
    succIterators_valid hwf bb it (hfilled.sub it h)
  have hself : ¬ s.Points empty bb := fun h => hfull (hfilled.nil bb h)
  have hlist₁ := hfilled.other bb hself
  have hterm₁ := hfilled.kept.getTerminator hwf hlist₁
  -- The terminator.
  obtain ⟨instr, s₂, hterminate, hT⟩ := terminate_eq (hfilled.kept.bb.trans hbb) bb
  rw [hterm₁] at hterminate
  have hkept := hfilled.kept.trans hT.kept
  have hlist₂ : s₂.lists bb = top ++ tgt :: (bottom ++ instr.toList) := by
    rw [hT.list, hlist₁, hlist, List.append_assoc, List.cons_append]
  -- The split, and the dummies go.
  obtain ⟨term, hterm, hsuccs⟩ := hT.succs hfilled hwf hterm₁
  have hsplit := splitBasicBlock_eq hlist₂ htop hterm hsuccs
  rw [hkept.nextBlock] at hsplit
  generalize hs₃ : ({ s₂ with
    instrs := Function.update s₂.instrs s₂.nextInstr (.br s.nextBlock)
    nextInstr := s₂.nextInstr + 1
    lists := Function.update (Function.update s₂.lists s.nextBlock
      (tgt :: (bottom ++ instr.toList))) bb (top ++ [s₂.nextInstr])
    nextBlock := s.nextBlock + 1 } : State) = s₃ at hsplit
  have hlists₃ : s₃.lists = Function.update (Function.update s₂.lists s.nextBlock
      (tgt :: (bottom ++ instr.toList))) bb (top ++ [s₂.nextInstr]) := by rw [← hs₃]
  have hinstrs₃ : ∀ i, i < s.nextInstr → s₃.instrs i = s.instrs i := by
    intro i hi
    rw [← hs₃, ← hkept.instrs i hi]
    exact Function.update_of_ne (Nat.ne_of_lt (Nat.lt_of_lt_of_le hi hkept.nextInstr)) _ _
  have hnext₃ : s.nextInstr ≤ s₃.nextInstr := by
    rw [← hs₃]
    exact Nat.le_succ_of_le hkept.nextInstr
  obtain ⟨lists, hclear, hnil, hother⟩ := clear_dummies hinstrs₃ hnext₃ hvalid instr
  have hfresh : ∀ b, ∀ i ∈ instr, i ∉ s.lists b := fun b i hi hmem =>
    Nat.not_lt.2 (Nat.le_trans hfilled.kept.nextInstr (hT.fresh i hi).1) (hwf.lists b i hmem)
  have hnew : s.nextBlock ≠ bb := Nat.ne_of_gt hlt
  refine ⟨s₂, lists, hkept, ?_, ?_, ?_, fun b hb hnb => ?_⟩
  · have hmem : tgt ∈ s.lists bb := by
      rw [hlist]
      exact List.mem_append_right _ List.mem_cons_self
    simp only [split, haddr, hmem, if_true, hadd, hterminate, hsplit, hclear, bind, Except.bind]
    rw [← hs₃]
    rfl
  · rw [hother bb hself]
    refine eraseDummy_lists (fun i hi hmem => ?_) bb (.inl ?_)
    · rcases List.mem_append.1 hmem with hmem | hmem
      · exact hfresh bb i hi (hlist ▸ List.mem_append_left _ hmem)
      · exact Nat.ne_of_lt (hT.fresh i hi).2 (List.mem_singleton.1 hmem)
    · rw [hlists₃, Function.update_self]
  · rw [hother s.nextBlock fun h => ?_]
    · refine eraseDummy_lists (fun i hi hmem => ?_) s.nextBlock (.inr ?_)
      · exact hfresh bb i hi (hlist ▸ List.mem_append_right _ hmem)
      · rw [hlists₃, Function.update_of_ne hnew, Function.update_self, List.cons_append]
    · obtain ⟨it, hit, hderef⟩ := h
      exact Nat.lt_irrefl _ (points_lt hwf ⟨it, hfilled.sub it hit, hderef⟩)
  · by_cases hp : s.Points empty b
    · rw [hnil b hp, hfilled.nil b hp]
    · rw [hother b hp]
      refine eraseDummy_lists (hfresh b) b (.inl ?_)
      rw [hlists₃, Function.update_of_ne hb, Function.update_of_ne hnb, hT.other b hb,
        hfilled.other b hp]

/-- The state after a split. -/
structure Halves (s : State) (bb addr : Nat) (top bottom : List Nat) (t : State) : Prop where
  nextBlock : t.nextBlock = s.nextBlock + 1
  nextInstr : s.nextInstr ≤ t.nextInstr
  instrs : ∀ i, i < s.nextInstr → t.instrs i = s.instrs i
  new : ∀ i, s.nextInstr ≤ i → i < t.nextInstr → ∀ b ∈ (t.instrs i).succs, b = s.nextBlock
  upper : ∃ br, s.nextInstr ≤ br ∧ br < t.nextInstr ∧ t.instrs br = .br s.nextBlock ∧
    t.lists bb = top ++ [br]
  lower : t.lists s.nextBlock = bottom
  other : ∀ b, b ≠ bb → b ≠ s.nextBlock → t.lists b = s.lists b
  bbs : t.bbs = Function.update
    (Function.update s.bbs bb {s.bbs bb with instrMap := (splitMap (s.bbs bb).instrMap addr).1})
    s.nextBlock ⟨some addr, (splitMap (s.bbs bb).instrMap addr).2⟩
  insertBlock : t.bld.bb = s.bld.bb
  atEnd : s.AtEnd → t.AtEnd
  first : t.bld.first = s.bld.first
  updateFirst : s.bld.updateFirst = true → t.bld.updateFirst = true

theorem split_halves (hwf : s.WellFormed) (hlt : bb < s.nextBlock)
    (haddr : (s.bbs bb).instrMap.get? addr = some tgt) {top bottom : List Nat}
    (hlist : s.lists bb = top ++ tgt :: bottom) (htop : tgt ∉ top) {bb₀ : Ref}
    (hbb : s.bld.bb = some bb₀) :
    ∃ t, s.split bb addr = .ok (s.nextBlock, t) ∧ Halves s bb addr top (tgt :: bottom) t := by
  obtain ⟨s₂, lists, hkept, hsplit, hupper, hlower, hother⟩ :=
    split_run hwf hlt haddr hlist htop hbb
  have hold : ∀ i, i ≠ s₂.nextInstr →
      Function.update s₂.instrs s₂.nextInstr (.br s.nextBlock) i = s₂.instrs i :=
    fun i hi => Function.update_of_ne hi _ _
  have hbr : Function.update s₂.instrs s₂.nextInstr (.br s.nextBlock) s₂.nextInstr =
      .br s.nextBlock := Function.update_self _ _ _
  refine ⟨_, hsplit, rfl, Nat.le_succ_of_le hkept.nextInstr, fun i hi => ?_,
    fun i hi hlt b hb => ?_,
    ⟨s₂.nextInstr, hkept.nextInstr, Nat.lt_succ_self _, hbr, hupper⟩, hlower, hother, ?_, hkept.bb,
    hkept.atEnd, hkept.first, hkept.updateFirst⟩
  · exact (hold i (Nat.ne_of_lt (Nat.lt_of_lt_of_le hi hkept.nextInstr))).trans (hkept.instrs i hi)
  · rcases Nat.lt_or_eq_of_le (Nat.le_of_lt_succ hlt) with hlt | rfl
    · -- A dummy has no successors.
      have hnil := (congrArg Opcode.succs (hold i (Nat.ne_of_lt hlt))).trans (hkept.new i hi hlt)
      exact absurd (hnil ▸ hb : b ∈ []) List.not_mem_nil
    · have hsuccs : _ = [s.nextBlock] := congrArg Opcode.succs hbr
      exact List.mem_singleton.1 (hsuccs ▸ hb)
  · rw [← hkept.bbs]
    rfl

theorem Halves.upperBB {top bottom : List Nat} (h : Halves s bb addr top bottom t)
    (hlt : bb < s.nextBlock) :
    t.bbs bb = {s.bbs bb with instrMap := (splitMap (s.bbs bb).instrMap addr).1} := by
  rw [h.bbs, Function.update_of_ne (Nat.ne_of_lt hlt), Function.update_self]

theorem Halves.lowerBB {top bottom : List Nat} (h : Halves s bb addr top bottom t) :
    t.bbs s.nextBlock = ⟨some addr, (splitMap (s.bbs bb).instrMap addr).2⟩ := by
  rw [h.bbs, Function.update_self]

theorem Halves.otherBB {top bottom : List Nat} (h : Halves s bb addr top bottom t) {b : Nat}
    (hb : b ≠ bb) (hnb : b ≠ s.nextBlock) : t.bbs b = s.bbs b := by
  rw [h.bbs, Function.update_of_ne hnb, Function.update_of_ne hb]

end State
end RiscvSbt.Splitting
