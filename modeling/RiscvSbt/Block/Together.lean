import RiscvSbt.Block.Labels
import RiscvSbt.Block.Upkeep
import RiscvSbt.Library.Segments

/-! The code of a guest instruction stays together.

The instructions that a guest instruction computes with are made one after the other. A block
is only ever split before an instruction that a guest instruction starts with, which its mark
tells, so that they stay side by side in whichever block they come to be in. -/
namespace RiscvSbt.Block
open Library State

/-- The `c` instructions from `i` on, none of which touches control flow. -/
def piece (i c : Nat) : List Instr := (List.range' i c).map fun j => ⟨j, .op⟩

/-- The list is part of one of the blocks from `n` on, that is not split inside of it. -/
structure Together (n : Nat) (s : State) (m : List Instr) : Prop where
  ids : ∀ i ∈ m, i.id < s.nextInstr
  unmarked : ∀ i ∈ m.tail, s.marks i.id = none
  block : ∃ b, n ≤ b ∧ b < s.nextBlock ∧ m <:+: (s.bbs b).insts

/-- Old instructions keep their marks, and new ones have none. -/
structure Unmarked (s t : State) : Prop where
  nextInstr : s.nextInstr ≤ t.nextInstr
  marks : ∀ i, i < s.nextInstr → t.marks i = s.marks i
  fresh : ∀ i, s.nextInstr ≤ i → i < t.nextInstr → t.marks i = none

/-- The instruction is in one of the blocks from `n` on. -/
def Within (n : Nat) (s : State) (i : Instr) : Prop :=
  ∃ b, n ≤ b ∧ b < s.nextBlock ∧ i ∈ (s.bbs b).insts

/-- What is together stays so, and what comes to be in a block is new. -/
structure Carries (n : Nat) (s t : State) : Prop extends Unmarked s t where
  nextBlock : s.nextBlock ≤ t.nextBlock
  together : ∀ m, Together n s m → Together n t m
  within : ∀ i, Within n t i → Within n s i ∨ s.nextInstr ≤ i.id
  first : ∀ i, s.bld.first = some i → t.bld.first = some i
  since : ∀ i, t.bld.first = some i → s.bld.first = some i ∨ (s.nextInstr ≤ i ∧ i < t.nextInstr)

variable {opts : Options} {body : Nat → Inst} {n st : Nat} {bad : Nat → Prop} {s t u : State}
  {addr tgt bb nb main k : Nat} {l m : List Instr}

theorem piece_succ (i c : Nat) : piece i (c + 1) = ⟨i, .op⟩ :: piece (i + 1) c := by
  unfold piece
  rw [List.range'_succ, List.map_cons]

theorem mem_piece {i c : Nat} {x : Instr} : x ∈ piece i c ↔ x.kind = .op ∧
    i ≤ x.id ∧ x.id < i + c := by
  unfold piece
  rw [List.mem_map]
  constructor
  · rintro ⟨j, hj, rfl⟩
    rw [List.mem_range'_1] at hj
    exact ⟨rfl, hj⟩
  · rintro ⟨hk, hx⟩
    exact ⟨x.id, List.mem_range'_1.mpr hx, by rw [← hk]⟩

/-! ### Marks -/

namespace Unmarked

theorem of_eq (hi : t.nextInstr = s.nextInstr) (hm : t.marks = s.marks) : Unmarked s t :=
  ⟨le_of_eq hi.symm, fun _ _ => by rw [hm], fun _ h₁ h₂ => absurd h₁ (Nat.not_le.mpr (hi ▸ h₂))⟩

theorem trans (h : Unmarked s t) (g : Unmarked t u) : Unmarked s u := by
  refine ⟨le_trans h.nextInstr g.nextInstr, fun i hi => ?_, fun i h₁ h₂ => ?_⟩
  · rw [g.marks i (lt_of_lt_of_le hi h.nextInstr), h.marks i hi]
  · by_cases hi : i < t.nextInstr
    · rw [g.marks i hi, h.fresh i h₁ hi]
    · exact g.fresh i (Nat.not_lt.mp hi) h₂

/-- One instruction more. -/
theorem of_update (hi : t.nextInstr = s.nextInstr + 1)
    (hm : t.marks = Function.update s.marks s.nextInstr none) : Unmarked s t := by
  refine ⟨by omega, fun i h => ?_, fun i h₁ h₂ => ?_⟩
  · rw [hm, Function.update_of_ne (Nat.ne_of_lt h)]
  · obtain rfl : i = s.nextInstr := by omega
    rw [hm, Function.update_self]

theorem ite {c : Prop} [Decidable c] (h : Unmarked s t) : Unmarked s (if c then t else s) := by
  split
  · exact h
  · exact .of_eq rfl rfl

theorem dummyRet (s : State) (b : Nat) : Unmarked s (s.dummyRet b) := .of_update rfl rfl

theorem addDummies (s : State) (succs : List Nat) : Unmarked s (s.addDummies succs).1 := by
  induction succs generalizing s with
  | nil => exact .of_eq rfl rfl
  | cons b rest ih =>
    unfold State.addDummies
    split
    · exact (dummyRet s b).trans (ih _)
    · exact ih s

theorem clears (s : State) (empty : List Nat) : Unmarked s (empty.foldl clear s) := by
  induction empty generalizing s with
  | nil => exact .of_eq rfl rfl
  | cons b rest ih =>
    have h : Unmarked s (s.clear b) := .of_eq rfl rfl
    exact h.trans (ih _)

/-- The instructions that a split makes have no marks. -/
theorem split (hs : s.split bb addr = .ok (nb, t)) : Unmarked s t := by
  unfold State.split at hs
  split at hs
  · cases hs
  next tgt _ =>
    split at hs
    · obtain ⟨-, rfl⟩ := Prod.mk.inj (Except.ok.inj hs)
      generalize terminator (s.bbs bb).insts = term
      have h₁ := addDummies s ((term.map Kind.succs).getD [])
      generalize s.addDummies ((term.map Kind.succs).getD []) = d at h₁
      have h₂ : Unmarked d.1 (if term.isNone then d.1.dummyRet bb else d.1) := .ite (dummyRet _ bb)
      generalize (if term.isNone then d.1.dummyRet bb else d.1) = s₂ at h₂
      have h₃ : Unmarked s₂ (s₂.splitBasicBlock bb tgt) := .of_update rfl rfl
      generalize s₂.splitBasicBlock bb tgt = s₃ at h₃
      have h₄ : Unmarked s₃ (if term.isNone then s₃.eraseLast s.nextBlock else s₃) :=
        .ite (.of_eq rfl rfl)
      generalize (if term.isNone then s₃.eraseLast s.nextBlock else s₃) = s₄ at h₄
      have h₅ := clears s₄ d.2
      exact h₁.trans (h₂.trans (h₃.trans (h₄.trans (h₅.trans (.of_eq rfl rfl)))))
    · cases hs

end Unmarked

/-! ### What is together -/

namespace Carries

theorem refl (s : State) : Carries n s s :=
  ⟨.of_eq rfl rfl, le_refl _, fun _ h => h, fun _ h => .inl h, fun _ h => h, fun _ h => .inl h⟩

theorem trans (h : Carries n s t) (g : Carries n t u) : Carries n s u := by
  refine ⟨h.toUnmarked.trans g.toUnmarked, le_trans h.nextBlock g.nextBlock,
    fun m hm => g.together m (h.together m hm), fun i hi => ?_,
    fun i hi => g.first i (h.first i hi), fun i hi => ?_⟩
  · rcases g.within i hi with hi | hi
    · exact h.within i hi
    · exact .inr (le_trans h.nextInstr hi)
  · have h₁ := h.nextInstr
    have h₂ := g.nextInstr
    rcases g.since i hi with hi | hi
    · exact (h.since i hi).imp_right fun hi => ⟨hi.1, by omega⟩
    · exact .inr ⟨by omega, hi.2⟩

/-- Blocks that only grow at their end, and new ones that are empty. -/
theorem of_prefix (hu : Unmarked s t) (hb : s.nextBlock ≤ t.nextBlock)
    (hfirst : ∀ i, s.bld.first = some i → t.bld.first = some i)
    (hsince : ∀ i, t.bld.first = some i → s.bld.first = some i ∨
      (s.nextInstr ≤ i ∧ i < t.nextInstr))
    (hpre : ∀ b, b < s.nextBlock →
      ∃ r, (t.bbs b).insts = (s.bbs b).insts ++ r ∧ ∀ i ∈ r, s.nextInstr ≤ i.id)
    (hnew : ∀ b, s.nextBlock ≤ b → b < t.nextBlock → (t.bbs b).insts = []) : Carries n s t := by
  refine ⟨hu, hb, fun m hm => ⟨fun i hmem => ?_, fun i hmem => ?_, ?_⟩, ?_, hfirst, hsince⟩
  · exact lt_of_lt_of_le (hm.ids i hmem) hu.nextInstr
  · rw [hu.marks i.id (hm.ids i (List.mem_of_mem_tail hmem))]
    exact hm.unmarked i hmem
  · obtain ⟨b, hn, hlt, hin⟩ := hm.block
    obtain ⟨r, hr, -⟩ := hpre b hlt
    exact ⟨b, hn, lt_of_lt_of_le hlt hb, hin.trans ⟨[], r, hr.symm⟩⟩
  · rintro i ⟨b, hn, hlt, hmem⟩
    by_cases hbs : b < s.nextBlock
    · obtain ⟨r, hr, hids⟩ := hpre b hbs
      rw [hr] at hmem
      rcases List.mem_append.mp hmem with hmem | hmem
      · exact .inl ⟨b, hn, hbs, hmem⟩
      · exact .inr (hids i hmem)
    · rw [hnew b (Nat.not_lt.mp hbs) hlt] at hmem
      cases hmem

/-- Only the cursors and the maps of the function change. -/
theorem note (hb : t.nextBlock = s.nextBlock) (hi : t.nextInstr = s.nextInstr)
    (hmarks : t.marks = s.marks) (hfirst : t.bld.first = s.bld.first)
    (hbbs : ∀ b, (t.bbs b).insts = (s.bbs b).insts) : Carries n s t :=
  of_prefix (.of_eq hi hmarks) (le_of_eq hb.symm) (fun _ h => hfirst.trans h)
    (fun _ h => .inl (hfirst.symm.trans h))
    (fun b _ => ⟨[], (hbbs b).trans (List.append_nil _).symm, fun _ h => (nomatch h)⟩)
    fun _ h₁ h₂ => absurd h₁ (Nat.not_le.mpr (hb ▸ h₂))

theorem setInsertBlock (s : State) (b : Nat) : Carries n s (s.setInsertBlock b) :=
  note rfl rfl rfl rfl fun _ => rfl

theorem updateNextBB (s : State) (c : Nat) : Carries n s (s.updateNextBB c) := by
  rw [Mid.updateNextBB_eq]
  exact note rfl rfl rfl rfl fun _ => rfl

theorem addBB (s : State) (k b : Nat) : Carries n s (s.addBB k b) :=
    note rfl rfl rfl rfl fun _ => rfl

theorem emit (s : State) (kind : Kind) : Carries n s (s.emit kind) := by
  have hbld : (s.emit kind).bld.first =
      if s.bld.first = none ∧ s.bld.updateFirst then some s.nextInstr else s.bld.first := rfl
  refine of_prefix (.of_update rfl rfl) (le_refl _) (fun i hi => ?_) (fun i hi => ?_)
    (fun b _ => ?_)
    fun b h₁ h₂ => absurd h₁ (Nat.not_le.mpr h₂)
  · rw [hbld, hi, if_neg (fun h => nomatch h.1)]
  · rw [hbld] at hi
    split at hi
    · obtain rfl := Option.some.inj hi
      exact .inr ⟨le_refl _, Nat.lt_succ_self _⟩
    · exact .inl hi
  · by_cases hb : b = s.bld.insertBlock
    · rw [hb]
      refine ⟨[⟨s.nextInstr, kind⟩], emit_insts_self s kind, fun i hi => ?_⟩
      rw [List.mem_singleton.mp hi]
    · rw [emit_bbs_of_ne hb]
      exact ⟨[], (List.append_nil _).symm, fun _ h => (nomatch h)⟩

theorem ops (s : State) (c : Nat) : Carries n s (s.ops c) := by
  induction c generalizing s with
  | zero => exact .refl s
  | succ c ih => exact (emit s .op).trans (ih _)

theorem create (s : State) {v : BasicBlock} (before : Option Nat) (hv : v.insts = []) :
    Carries n s (s.create v before) := by
  refine of_prefix (.of_eq rfl rfl) (Nat.le_succ _) (fun _ h => h) (fun _ h => .inl h)
    (fun b hb => ?_)
    fun b h₁ h₂ => ?_
  · rw [create_bbs_of_ne (Nat.ne_of_lt hb)]
    exact ⟨[], (List.append_nil _).symm, fun _ h => (nomatch h)⟩
  · obtain rfl : b = s.nextBlock := Nat.le_antisymm (Nat.lt_succ_iff.mp h₂) h₁
    rw [show (s.create v before).bbs s.nextBlock = v from Function.update_self _ _ _, hv]

theorem newBB (s : State) (k : Nat) (before : Option Nat) : Carries n s (s.newBB k before).2 :=
  (create s before rfl).trans (addBB _ k s.nextBlock)

theorem newUBB (s : State) (a : Nat) : Carries n s (s.newUBB a).2 :=
  (create s (v := {f := s.func.f, untracked := true}) (s.lowerBoundBB (a + 4)) rfl).trans
    (note rfl rfl rfl rfl fun _ => rfl)

/-- **Splitting a block** before an instruction with a mark. -/
theorem split (hn : n ≤ bb) (hlt : bb < s.nextBlock)
    (hsuccs : ∀ k, terminator (s.bbs bb).insts = some k → s.nextBlock ∉ k.succs)
    (hmark : ∀ i, (s.bbs bb).instrMap.get? addr = some i → s.marks i ≠ none)
    (hs : s.split bb addr = .ok (nb, t)) : Carries n s t := by
  have hu := Unmarked.split hs
  cases hmap : (s.bbs bb).instrMap.get? addr with
  | none =>
    unfold State.split at hs
    rw [hmap] at hs
    cases hs
  | some tgt =>
    cases hfind : (s.bbs bb).insts.find? (·.id = tgt) with
    | none =>
      have hany : (s.bbs bb).insts.any (·.id = tgt) = false := by
        rw [List.any_eq_false]
        exact List.find?_eq_none.mp hfind
      unfold State.split at hs
      simp only [hmap, hany, Bool.false_eq_true, if_false] at hs
      cases hs
    | some i =>
      obtain ⟨hi, top, bottom, hinsts, htop⟩ := List.find?_eq_some_iff_append.mp hfind
      obtain rfl : i.id = tgt := of_decide_eq_true hi
      have htop : ∀ j ∈ top, j.id ≠ i.id := fun j hj => by simpa using htop j hj
      obtain ⟨t', ht', hh⟩ := split_spec s bb addr hmap hinsts htop (Nat.ne_of_lt hlt) hsuccs
      obtain ⟨-, rfl⟩ := Prod.mk.inj (Except.ok.inj (hs.symm.trans ht'))
      have hnext := hh.nextBlock
      obtain ⟨k, hk, -, -, hold⟩ := hh.old
      refine ⟨hu, by omega, fun m hm => ⟨fun j hj => ?_, fun j hj => ?_, ?_⟩, ?_,
        fun j hj => hh.first.trans hj, fun j hj => .inl (hh.first.symm.trans hj)⟩
      · exact lt_of_lt_of_le (hm.ids j hj) hu.nextInstr
      · rw [hu.marks j.id (hm.ids j (List.mem_of_mem_tail hj))]
        exact hm.unmarked j hj
      · obtain ⟨b, hb, hblt, hin⟩ := hm.block
        by_cases hbb : b = bb
        · subst hbb
          rw [hinsts] at hin
          rcases infix_cut hin fun hmem => hmark i.id hmap (hm.unmarked i hmem) with hin | hin
          · refine ⟨b, hb, by omega, ?_⟩
            rw [hold]
            exact hin.trans (List.prefix_append _ _).isInfix
          · refine ⟨s.nextBlock, by omega, by omega, ?_⟩
            rw [hh.new]
            exact hin
        · refine ⟨b, hb, by omega, ?_⟩
          rw [hh.other b hbb (Nat.ne_of_lt hblt)]
          exact hin
      · rintro j ⟨b, hb, hblt, hmem⟩
        by_cases hbb : b = bb
        · subst hbb
          rw [hold] at hmem
          rcases List.mem_append.mp hmem with hmem | hmem
          · exact .inl ⟨b, hb, hlt, hinsts ▸ List.mem_append_left _ hmem⟩
          · rw [List.mem_singleton.mp hmem]
            exact .inr hk
        · by_cases hbn : b = s.nextBlock
          · rw [hbn, hh.new] at hmem
            exact .inl ⟨bb, hn, hlt, hinsts ▸ List.mem_append_right _ hmem⟩
          · rw [hh.other b hbb hbn] at hmem
            exact .inl ⟨b, hb, by omega, hmem⟩

/-! ### Auxiliary blocks -/

theorem br (s : State) (b : Nat) : Carries n s (s.br b) := emit s _

theorem condBr (s : State) (cond : Cond) (x y : Nat) : Carries n s (s.condBr cond x y) := emit s _

theorem retVoid (s : State) : Carries n s s.retVoid := emit s _

theorem getFirst (s : State) : Carries n s s.getFirst := by
  unfold State.getFirst
  split
  · exact emit s .op
  · exact .refl s

/-- A block that is filled, and goes on at another one. -/
theorem fill (h : Carries n s t) (b c x : Nat) :
    Carries n s (((t.setInsertBlock b).ops c).br x) :=
  h.trans ((setInsertBlock t b).trans ((ops _ c).trans (br _ x)))

theorem leaveFunction (s : State) : Carries n s (s.leaveFunction opts addr).1 := by
  unfold State.leaveFunction
  split
  · exact ops s _
  · have h := (ops (n := n) s 2).trans ((newUBB _ addr).trans
      ((newUBB _ addr).trans (condBr _ .helper
      ((s.ops 2).newUBB addr).2.nextBlock (s.ops 2).nextBlock)))
    exact (h.fill _ _ _).trans (setInsertBlock _ _)

/-- Three blocks, a branch to two of them, and these filled. -/
theorem fork (s : State) (x y p q r z w : Nat) :
    let t := (((s.newUBB addr).2.newUBB addr).2.newUBB addr).2
    let t := (((t.condBr .helper x y).setInsertBlock p).ops q).br z
    Carries n s ((((t.setInsertBlock w).ops r).br z).setInsertBlock z) := by
  have h := (newUBB (n := n) s addr).trans ((newUBB _ addr).trans ((newUBB _ addr).trans
    (condBr _ .helper x y)))
  exact ((h.fill p q z).fill w r z).trans (setInsertBlock _ z)

theorem icall (s : State) (ext : Bool) : Carries n s (s.icall opts addr ext) := by
  unfold State.icall
  split
  · exact ops s _
  · split
    · exact ops s _
    · have hext : (if ext = true then s else s.ops 2) = s.ops (if ext = true then 0 else 2) := by
        split <;> rfl
      have harm : ∀ s' : State, (if opts.hardFloatABI = true then s'.ops 1
        else s'.callICaller opts) =
          s'.ops (if opts.hardFloatABI = true then 1 else opts.icaller + 1) := by
        intro s'
        split <;> rfl
      simp only [hext, harm]
      exact (ops s _).trans (fork _ _ _ _ _ _ _ _)

theorem enterFunction (s : State) : Carries n s (s.enterFunction opts addr) := by
  unfold State.enterFunction
  split
  · exact ops s _
  · split
    · exact ops s _
    · exact fork s _ _ _ _ _ _ _

theorem handleICall (s : State) : Carries n s (s.handleICall opts addr) :=
  (leaveFunction s).trans ((icall _ _).trans (enterFunction _))

theorem outOfRange (s : State) (x y z : Nat) : Carries n s (s.outOfRange x y z) :=
  (((ops s 1).trans (condBr _ .helper x y)).fill x 1 z).trans (setInsertBlock _ y)

theorem translateCVT (s : State) : Carries n s (s.translateCVT opts addr) := by
  unfold State.translateCVT State.validateRangeBegin
  by_cases hv : opts.enableFCVTValidation = true
  · simp only [hv, if_true, validateRangeEnd]
    refine trans ?_ (setInsertBlock _ _)
    refine trans ?_ ((ops _ 2).trans (br _ _))
    refine trans ?_ ((outOfRange _ _ _ _).trans (outOfRange _ _ _ _))
    refine trans ?_ ((outOfRange _ _ _ _).trans (outOfRange _ _ _ _))
    exact (newUBB s addr).trans ((newUBB _ addr).trans ((newUBB _ addr).trans ((newUBB _ addr).trans
      ((newUBB _ addr).trans ((newUBB _ addr).trans ((newUBB _ addr).trans ((newUBB _ addr).trans
        (newUBB _ addr))))))))
  · simp only [hv, if_false, Bool.false_eq_true]
    exact ops s 2

/-! ### Branches and jumps -/

theorem jumpForward (hj : s.jumpForward tgt = .ok (bb, t)) : Carries n s t := by
  unfold State.jumpForward at hj
  cases hlb : s.lowerBoundBB tgt with
  | none =>
    rw [hlb] at hj
    obtain ⟨-, rfl⟩ := Prod.mk.inj (Except.ok.inj hj)
    exact (newBB s tgt none).trans (updateNextBB _ _)
  | some b =>
    rw [hlb] at hj
    obtain ⟨a, -, hj⟩ := bind_ok hj
    split at hj
    · obtain ⟨-, rfl⟩ := Prod.mk.inj (Except.ok.inj hj)
      exact .refl s
    · obtain ⟨-, rfl⟩ := Prod.mk.inj (Except.ok.inj hj)
      exact (newBB s tgt (some b)).trans (updateNextBB _ _)

theorem needNextBB (s : State) : Carries n s (s.needNextBB addr) := by
  unfold State.needNextBB
  split
  · exact updateNextBB _ _
  · exact (newBB s _ _).trans (updateNextBB _ _)

end Carries

/-! ### While an instruction is translated -/

namespace Mid

/-- The last instruction of a block does not go to a block to come. -/
theorem succs (h : Mid opts body n st bad s addr main k l m) {kb : Nat}
    (hb : s.findBB kb = some bb) :
    ∀ kind, terminator (s.bbs bb).insts = some kind → s.nextBlock ∉ kind.succs := by
  intro kind hkind
  by_cases hk : kb = k
  · subst hk
    obtain rfl : main = bb := Option.some.inj (h.key.symm.trans hb)
    rw [h.straight_insts.terminator] at hkind
    cases hkind
  · rcases (h.rest kb bb hb hk).2 with hs | ⟨-, hnil⟩
    · obtain ⟨e, hcode, -⟩ := hs.code
      exact hcode.not_succ h.heap kind hkind
    · rw [hnil] at hkind
      cases hkind

/-- What is in the map of a block has a mark. -/
theorem mark (h : Mid opts body n st bad s addr main k l m) {kb a i : Nat}
    (hb : s.findBB kb = some bb)
    (hi : (s.bbs bb).instrMap.get? a = some i) : s.marks i ≠ .none := by
  have hrec : ∃ l, Recorded s bb l := by
    by_cases hk : kb = k
    · subst hk
      obtain rfl : main = bb := Option.some.inj (h.key.symm.trans hb)
      exact ⟨l, h.recorded⟩
    · exact ⟨_, (h.rest kb bb hb hk).1⟩
  obtain ⟨l, hrec⟩ := hrec
  obtain ⟨x, -, rfl, hx⟩ := (hrec a i).mp hi
  rw [hx]
  exact nofun

theorem carries_jumpBackward (h : Mid opts body n st bad s addr main k l m)
    (hj : s.jumpBackward tgt = .ok (bb, t)) : Carries n s t := by
  obtain ⟨b, hb, hj⟩ := bind_ok hj
  obtain ⟨kb, hkb⟩ := getBackBB_tracked hb
  obtain ⟨hn, hlt, -⟩ := h.heap.tracked kb b hkb
  obtain ⟨c, -, hj⟩ := bind_ok hj
  split at hj
  · obtain ⟨a, -, hj⟩ := bind_ok hj
    split at hj
    · obtain ⟨-, rfl⟩ := Prod.mk.inj (Except.ok.inj hj)
      exact .refl s
    · obtain ⟨⟨nb, v⟩, hv, hj⟩ := bind_ok hj
      obtain ⟨-, rfl⟩ := Prod.mk.inj (Except.ok.inj hj)
      have hsplit := Carries.split hn hlt (h.succs hkb) (fun i hi => h.mark hkb hi) hv
      have hadd := hsplit.trans (.addBB v tgt nb)
      split
      · exact hadd.trans (.setInsertBlock _ _)
      · exact hadd
  · cases hj

theorem carries_handleJump (h : Mid opts body n st bad s addr main k l m) {cond : Option Cond}
    (hj : s.handleJump addr tgt cond 0 = .ok t) : Carries n s t := by
  by_cases hne : tgt = addr
  · unfold State.handleJump at hj
    rw [if_pos hne] at hj
    cases hj
  cases hr : (if addr < tgt then s.jumpForward tgt else s.jumpBackward tgt) with
  | error e =>
    unfold State.handleJump at hj
    rw [if_neg hne] at hj
    by_cases hlt : addr < tgt
    · rw [if_pos hlt] at hr
      rw [if_pos hlt, hr] at hj
      cases hj
    · rw [if_neg hlt] at hr
      rw [if_neg hlt, hr] at hj
      cases hj
  | ok x =>
    obtain ⟨bb, v⟩ := x
    rw [Mid.handleJump_ok hne hr] at hj
    have hv : Carries n s v := by
      split at hr
      · exact .jumpForward hr
      · exact h.carries_jumpBackward hr
    have hneed : Carries n v (v.needNextBB addr) := .needNextBB v
    have hnext := hv.trans hneed
    cases cond with
    | none =>
      obtain rfl := Except.ok.inj hj
      exact hnext.trans (.br _ bb)
    | some c =>
      dsimp only at hj
      split at hj
      · obtain rfl := Except.ok.inj hj
        exact hnext.trans (.condBr _ c bb _)
      · cases hj

/-- **The code of an instruction**, from the instructions that it computes with on. -/
theorem carries (h : Mid opts body n st bad s.reset addr main k l [])
    (ht : s.translate opts addr (body addr) = .ok t) :
    ∃ v, Carries n (s.reset.ops (body addr).ops) v ∧ t = v.dbgprint addr := by
  obtain ⟨⟨m, hm⟩, -⟩ := h.ops (body addr).ops
  unfold State.translate at ht
  generalize s.reset.ops (body addr).ops = u at *
  dsimp only at ht
  cases hact : (body addr).act with
  | next | call _ =>
    rw [hact] at ht
    exact ⟨u, .refl u, (Except.ok.inj ht).symm⟩
  | icall =>
    rw [hact] at ht
    exact ⟨_, .handleICall u, (Except.ok.inj ht).symm⟩
  | cvt =>
    rw [hact] at ht
    exact ⟨_, .translateCVT u, (Except.ok.inj ht).symm⟩
  | branch tgt | jump tgt =>
    rw [hact] at ht
    obtain ⟨v, hv, ht⟩ := bind_ok ht
    exact ⟨v, hm.carries_handleJump hv, (Except.ok.inj ht).symm⟩
  | ret | tail _ =>
    rw [hact] at ht
    exact ⟨_, .retVoid u, (Except.ok.inj ht).symm⟩
  | ijump =>
    rw [hact] at ht
    exact ⟨u.handleIJump, (Carries.emit u .indBr).trans (.note rfl rfl rfl rfl fun _ => rfl),
      (Except.ok.inj ht).symm⟩

end Mid

/-- The label of an instruction. -/
theorem Post.carries (h : Post opts body n st bad s addr main k)
    (hp : s.processPending addr main = .ok (bb, t)) : Carries n s t := by
  obtain ⟨hn, hlt, -⟩ := h.heap.tracked k main h.key
  unfold State.processPending at hp
  cases hget : s.pending.get? addr with
  | none =>
    simp only [hget] at hp
    obtain ⟨-, rfl⟩ := Prod.mk.inj (Except.ok.inj hp)
    exact .refl s
  | some prel =>
    simp only [hget] at hp
    have hserve : ∀ {v : State} {nb : Nat}, Carries n s v →
        (do
          let sections ← prel.secs.foldlM (patch nb) v.sections
          pure (nb, { v with
            sections := sections
            pending := v.pending.remove addr
            func := {v.func with indBBs := v.func.indBBs ++ [nb]} })) = Except.ok (bb, t) →
        Carries n s t := by
      intro v nb hv hrun
      obtain ⟨secs, -, hrun⟩ := bind_ok hrun
      obtain ⟨-, rfl⟩ := Prod.mk.inj (Except.ok.inj hrun)
      exact hv.trans (.note rfl rfl rfl rfl fun _ => rfl)
    obtain ⟨a, -, hp⟩ := bind_ok hp
    split at hp
    · exact hserve (.refl s) hp
    · obtain ⟨⟨nb, v⟩, hv, hp⟩ := bind_ok hp
      have hsplit : Carries n s v := .split hn hlt (h.code.not_succ h.heap) (fun i hi => by
        obtain ⟨x, -, rfl, hx⟩ := (h.recorded addr i).mp hi
        rw [hx]
        exact nofun) hv
      exact hserve (hsplit.trans ((Carries.addBB _ _ _).trans (.setInsertBlock _ _))) hp

end RiscvSbt.Block
