import RiscvSbt.Block.Heap

/-! The invariant of block construction.

While `addr` is being translated, `Work` describes the function: the main block holds
the code from its own address up to `addr`, every other block with code is sealed, and
the blocks ahead are empty. `Inv` is the same at the head of the loop, where the last
block may be sealed already and the cursor `nextBB` tells whether a block starts at
`addr`. -/
namespace RiscvSbt.Block
open Library

/-- A tracked block starts there. -/
def HasBB (s : State) (k : Nat) : Prop := ∃ b, s.findBB k = some b

section Predicates
variable (opts : Options) (body : Nat → Inst) (n st : Nat) (bad : Nat → Prop) (s : State)

/-- A block whose code is complete: it ends with a terminator, and where it stops the
next block starts. -/
structure Sealed (addr k b : Nat) : Prop where
  terminated : (terminator (s.bbs b).insts).isSome
  code : ∃ e, Code opts body s k (s.bbs b).insts e ∧ k < e ∧ e ≤ addr ∧ HasBB s e ∧
    ∀ k', HasBB s k' → k' ≤ k ∨ e ≤ k'

/-- The map of a block has the marked instructions of the code. -/
def Recorded (b : Nat) (l : List Instr) : Prop :=
  ∀ a i, (s.bbs b).instrMap.get? a = some i ↔ ∃ x ∈ l, x.id = i ∧ s.marks i = some a

/-- An untracked block that goes on in later blocks of its instruction. -/
def Forward (a y : Nat) : Prop :=
  ∃ l i, (s.bbs y).insts = l ++ [i] ∧ Quiet s l ∧ s.marks i.id = none ∧
    ((∃ z, i.kind = .br z) ∨ ∃ z w, i.kind = .condBr .helper z w) ∧
    ∀ z ∈ i.kind.succs, z ∈ s.ubbs a ∧ y < z

/-- The untracked blocks of an instruction all lead to `x`. -/
structure Region (a x : Nat) : Prop where
  exit : x ∈ s.ubbs a
  forward : ∀ y ∈ s.ubbs a, y ≠ x → Forward s a y

/-- The untracked block that an instruction ends in goes on to the next instruction. -/
def Closed (a x : Nat) : Prop :=
  ∃ l i b, (s.bbs x).insts = l ++ [i] ∧ Quiet s l ∧ s.marks i.id = none ∧ i.kind = .br b ∧
    s.findBB (a + 4) = some b

/-- How the untracked code of an instruction ends: it goes on to the next instruction, or
was left open if it is among the `bad`. -/
def Exit (a : Nat) : Prop :=
  ∃ x, Region s a x ∧ (¬ bad a → Closed s a x) ∧
    (bad a → Quiet s (s.bbs x).insts ∧ x ≠ s.bld.insertBlock)

structure Work (addr main k : Nat) (l : List Instr) : Prop where
  heap : Heap n s
  bounds : ∀ k', HasBB s k' → st ≤ k' ∧ k' % 4 = 0
  entry : HasBB s st
  key : s.findBB k = some main
  le : k ≤ addr
  gap : ∀ k', HasBB s k' → k' ≤ k ∨ addr < k'
  pre : l <+: (s.bbs main).insts
  code : Code opts body s k l addr
  straight : Straight l
  recorded : Recorded s main l
  rest : ∀ k' b, s.findBB k' = some b → k' ≠ k → Recorded s b (s.bbs b).insts ∧
    (Sealed opts body s addr k' b ∨ (addr < k' ∧ (s.bbs b).insts = []))
  exits : ∀ a, st ≤ a → a < addr → a % 4 = 0 → (body a).act.leaves opts → Exit bad s a
  helpers : ∀ a b, b ∈ s.ubbs a → a = addr ∨
    (st ≤ a ∧ a < addr ∧ a % 4 = 0 ∧ (body a).act.leaves opts)

end Predicates

variable {opts : Options} {body : Nat → Inst} {n st : Nat} {bad : Nat → Prop} {s t : State}
  {addr main k : Nat} {l : List Instr}

theorem HasBB.grow (g : Grows s t) {k : Nat} (h : HasBB s k) : HasBB t k := by
  obtain ⟨b, hb⟩ := h
  exact ⟨b, g.find k b hb⟩

/-! ### What frames keep -/

section Frames
variable {B : Nat → Prop}

theorem Sealed.frame (f : Frame n B s t) (h : Heap n s) {k' b : Nat} (hb : s.findBB k' = some b)
    (hB : ¬ B b) (hs : Sealed opts body s addr k' b)
    (hgap : ∀ e, HasBB s e → e ≤ addr → (∀ c, HasBB s c → c ≤ k' ∨ e ≤ c) →
      ∀ c, HasBB t c → c ≤ k' ∨ e ≤ c) : Sealed opts body t addr k' b := by
  obtain ⟨hn, hlt, -⟩ := h.tracked k' b hb
  have hbbs := f.bbs b hlt hB
  obtain ⟨e, hcode, hk, he, hbb, hsep⟩ := hs.code
  refine ⟨by rw [hbbs]; exact hs.terminated, e, ?_, hk, he, hbb.grow f.toGrows,
    hgap e hbb he hsep⟩
  rw [hbbs]
  exact hcode.grow f.toGrows (f.marks _ hn hlt hB)

theorem Recorded.keep {b : Nat} {m : List Instr}
    (hmap : (t.bbs b).instrMap = (s.bbs b).instrMap)
    (hm : ∀ i ∈ m, t.marks i.id = s.marks i.id) (hr : Recorded s b m) : Recorded t b m := by
  intro a i
  rw [hmap, hr a i]
  refine exists_congr fun x => and_congr_right fun hx => and_congr_right fun hi => ?_
  rw [← hi, hm x hx]

theorem Forward.frame (f : Frame n B s t) (h : Heap n s) {a y : Nat} (hy : y ∈ s.ubbs a)
    (hB : ¬ B y) (hf : Forward s a y) : Forward t a y := by
  obtain ⟨hn, hlt, -⟩ := h.helper a y hy
  obtain ⟨m, i, hm, hq, hi, hk, hz⟩ := hf
  have hmarks := f.marks _ hn hlt hB
  rw [hm] at hmarks
  refine ⟨m, i, by rw [f.bbs y hlt hB, hm], hq.grow fun j hj => ?_, ?_, hk, fun z hz' => ?_⟩
  · exact hmarks j (List.mem_append_left _ hj)
  · exact (hmarks i (List.mem_append_right _ (List.mem_singleton.mpr rfl))).trans hi
  · exact ⟨f.ubbs a z (hz z hz').1, (hz z hz').2⟩

theorem Region.frame (f : Frame n B s t) (h : Heap n s) {a x : Nat}
    (hub : ∀ b, b ∈ t.ubbs a → b ∈ s.ubbs a) (hB : ∀ y ∈ s.ubbs a, y ≠ x → ¬ B y)
    (hr : Region s a x) : Region t a x := by
  refine ⟨f.ubbs a x hr.exit, fun y hy hne => ?_⟩
  exact (hr.forward y (hub y hy) hne).frame f h (hub y hy) (hB y (hub y hy) hne)

theorem Closed.frame (f : Frame n B s t) (h : Heap n s) {a x : Nat} (hx : x ∈ s.ubbs a)
    (hB : ¬ B x) (hc : Closed s a x) : Closed t a x := by
  obtain ⟨hn, hlt, -⟩ := h.helper a x hx
  obtain ⟨m, i, b, hm, hq, hi, hk, hb⟩ := hc
  have hmarks := f.marks _ hn hlt hB
  rw [hm] at hmarks
  refine ⟨m, i, b, by rw [f.bbs x hlt hB, hm], hq.grow fun j hj => ?_, ?_, hk,
    f.find _ _ hb⟩
  · exact hmarks j (List.mem_append_left _ hj)
  · exact (hmarks i (List.mem_append_right _ (List.mem_singleton.mpr rfl))).trans hi

theorem Exit.frame (f : Frame n B s t) (h : Heap n s) {a : Nat}
    (hub : ∀ b, b ∈ t.ubbs a → b ∈ s.ubbs a) (hB : ∀ y ∈ s.ubbs a, ¬ B y)
    (hins : ∀ y ∈ s.ubbs a, y ≠ s.bld.insertBlock → y ≠ t.bld.insertBlock)
    (he : Exit bad s a) : Exit bad t a := by
  obtain ⟨x, hr, hclosed, hopen⟩ := he
  obtain ⟨hn, hlt, -⟩ := h.helper a x hr.exit
  refine ⟨x, hr.frame f h hub fun y hy _ => hB y hy, fun hb => ?_, fun hb => ?_⟩
  · exact (hclosed hb).frame f h hr.exit (hB x hr.exit)
  · obtain ⟨hq, hne⟩ := hopen hb
    rw [f.bbs x hlt (hB x hr.exit)]
    exact ⟨hq.grow (f.marks _ hn hlt (hB x hr.exit)), hins x hr.exit hne⟩

end Frames

namespace Work

/-- **Steps off the beaten code.** Whatever only touches the main block behind its code,
or adds blocks ahead or untracked ones, keeps the invariant. -/
theorem step (h : Work opts body n st bad s addr main k l) (f : Frame n (· = main) s t)
    (hheap : Heap n t) (hpre : l <+: (t.bbs main).insts)
    (hmarks : ∀ i ∈ l, t.marks i.id = s.marks i.id)
    (hmap : (t.bbs main).instrMap = (s.bbs main).instrMap)
    (hnew : ∀ k' b, t.findBB k' = some b → s.findBB k' = some b ∨
      (addr < k' ∧ k' % 4 = 0 ∧ (t.bbs b).insts = [] ∧ (t.bbs b).instrMap = Map.empty))
    (hub : ∀ a b, b ∈ t.ubbs a → b ∈ s.ubbs a ∨ a = addr)
    (hins : t.bld.insertBlock = s.bld.insertBlock ∨ t.bld.insertBlock = main ∨
      t.bld.insertBlock ∈ s.ubbs addr) :
    Work opts body n st bad t addr main k l := by
  have hkeys : ∀ k', HasBB t k' → HasBB s k' ∨ (addr < k' ∧ k' % 4 = 0) := by
    rintro k' ⟨b, hb⟩
    rcases hnew k' b hb with hb | ⟨hk, hm, -⟩
    · exact .inl ⟨b, hb⟩
    · exact .inr ⟨hk, hm⟩
  have hst : st ≤ addr := le_trans (h.bounds k ⟨main, h.key⟩).1 h.le
  refine ⟨hheap, fun k' hk => ?_, h.entry.grow f.toGrows, f.find _ _ h.key, h.le, fun k' hk => ?_,
    hpre, h.code.grow f.toGrows hmarks, h.straight, h.recorded.keep hmap hmarks,
    fun k' b hb hne => ?_, fun a hst' ha hmod hact => ?_, fun a b hb => ?_⟩
  · rcases hkeys k' hk with hk | ⟨hk, hm⟩
    · exact h.bounds k' hk
    · exact ⟨by omega, hm⟩
  · rcases hkeys k' hk with hk | ⟨hk, -⟩
    · exact h.gap k' hk
    · exact .inr hk
  · rcases hnew k' b hb with hb' | ⟨hk, -, hnil, hempty⟩
    · obtain ⟨hrec, hrest⟩ := h.rest k' b hb' hne
      obtain ⟨hn', hlt', -⟩ := h.heap.tracked k' b hb'
      have hB : ¬ b = main := h.heap.find_ne hb' h.key hne
      have hbbs := f.bbs b hlt' hB
      refine ⟨?_, ?_⟩
      · rw [hbbs]
        exact hrec.keep (by rw [hbbs]) (f.marks b hn' hlt' hB)
      · rcases hrest with hs | ⟨hk, hnil⟩
        · refine .inl (hs.frame f h.heap hb' hB fun e hbb he hsep c hc => ?_)
          rcases hkeys c hc with hc | ⟨hc, -⟩
          · exact hsep c hc
          · exact .inr (by omega)
        · exact .inr ⟨hk, by rw [hbbs, hnil]⟩
    · refine ⟨fun a i => ?_, .inr ⟨hk, hnil⟩⟩
      rw [hempty, hnil]
      simp
  · refine (h.exits a hst' ha hmod hact).frame f h.heap (fun b hb => ?_) (fun y hy hym => ?_)
      fun y hy hne => ?_
    · rcases hub a b hb with hb | rfl
      · exact hb
      · omega
    · exact h.heap.find_ubbs h.key (hym ▸ hy)
    · rcases hins with hins | hins | hins
      · rw [hins]
        exact hne
      · rw [hins]
        rintro rfl
        exact h.heap.find_ubbs h.key hy
      · rintro rfl
        have := h.heap.helper_inj a addr _ hy hins
        omega
  · rcases hub a b hb with hb | rfl
    · exact h.helpers a b hb
    · exact .inl rfl

/-- The cursor may go back to the main block. -/
theorem setInsertBlock (h : Work opts body n st bad s addr main k l) :
    Work opts body n st bad (s.setInsertBlock main) addr main k l := by
  obtain ⟨hn, hlt, -⟩ := h.heap.tracked k main h.key
  exact h.step (.of_eq _ ⟨fun _ _ hk => hk, fun _ _ hb => hb⟩ rfl rfl rfl)
    (h.heap.setInsertBlock hn hlt) h.pre (fun _ _ => rfl) rfl (fun _ _ hb => .inl hb)
    (fun _ _ hb => .inl hb) (.inr (.inl rfl))

end Work
end RiscvSbt.Block
