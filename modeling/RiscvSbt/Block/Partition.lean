import RiscvSbt.Block.Loop

/-! The blocks of a function divide its translated addresses up.

`Covered` is the part of the invariants that this rests on: every tracked block holds code
from its own address up to where the next block starts. -/
namespace RiscvSbt.Block
open Library State

/-- The map of a block lists the block's addresses and their instructions, both in order. -/
structure Indexed (s : State) (k b : Nat) : Prop where
  keys : ∃ n, (s.bbs b).instrMap.data.map Prod.fst = List.range' k n 4
  order : ((s.bbs b).instrMap.data.map Prod.snd).Sublist ((s.bbs b).insts.map Instr.id)

/-- Every address from `st` up to `addr` belongs to exactly one tracked block. -/
structure Partition (s : State) (st addr : Nat) : Prop where
  covered : ∀ a, st ≤ a → a < addr → a % 4 = 0 →
    ∃! b, (∃ k, s.findBB k = some b) ∧ ((s.bbs b).instrMap.get? a).isSome
  within : ∀ k b a, s.findBB k = some b → ((s.bbs b).instrMap.get? a).isSome →
    st ≤ a ∧ a < addr ∧ a % 4 = 0
  indexed : ∀ k b, s.findBB k = some b → Indexed s k b

/-- A backward jump finds the block of its target, and can split it. -/
structure Lands (s : State) (tgt : Nat) : Prop where
  block : ∃ k b, s.getBackBB tgt = .ok b ∧ s.findBB k = some b ∧
    ((s.bbs b).instrMap.get? tgt).isSome ∧ targetInBounds tgt (s.bbs b) = .ok true ∧
    ∃ b' t, s.split b tgt = .ok (b', t)
  jump : ∃ b t, s.jumpBackward tgt = .ok (b, t)

section Covered
variable (opts : Options) (body : Nat → Inst) (n st : Nat) (s : State)

structure Covered (addr : Nat) : Prop where
  heap : Heap n s
  bounds : ∀ c, HasBB s c → st ≤ c ∧ c % 4 = 0
  entry : HasBB s st
  block : ∀ k b, s.findBB k = some b → ∃ l e, l <+: (s.bbs b).insts ∧ Code opts body s k l e ∧
    Recorded s b l ∧ (∀ c, HasBB s c → c ≤ k ∨ e ≤ c) ∧ (e < addr → HasBB s e) ∧
    (e ≤ addr ∨ e = k) ∧ (k < e ∨ addr ≤ k)

end Covered

variable {opts : Options} {body : Nat → Inst} {n st : Nat} {bad : Nat → Prop} {s t : State}
  {addr main k tgt : Nat} {l m : List Instr}

theorem Recorded.empty {b : Nat} (h : Recorded s b (s.bbs b).insts) (hnil : (s.bbs b).insts = []) :
    Recorded s b [] := by
  rw [hnil] at h
  exact h

/-- Blocks beside the one being filled. -/
theorem Covered.rest {b : Nat} (hrec : Recorded s b (s.bbs b).insts)
    (h : Sealed opts body s addr k b ∨ (addr ≤ k ∧ (s.bbs b).insts = [])) :
    ∃ l e, l <+: (s.bbs b).insts ∧ Code opts body s k l e ∧ Recorded s b l ∧
      (∀ c, HasBB s c → c ≤ k ∨ e ≤ c) ∧ (e < addr → HasBB s e) ∧ (e ≤ addr ∨ e = k) ∧
      (k < e ∨ addr ≤ k) := by
  rcases h with hs | ⟨hk, hnil⟩
  · obtain ⟨e, hcode, hlt, hle, hbb, hsep⟩ := hs.code
    exact ⟨_, e, List.prefix_refl _, hcode, hrec, hsep, fun _ => hbb, .inl hle, .inl hlt⟩
  · exact ⟨[], k, List.nil_prefix, .stop k, hrec.empty hnil, fun c _ => le_total c k,
      fun hlt => by omega, .inr rfl, .inr hk⟩

theorem Inv.covered (h : Inv opts body n st bad s addr main k) : Covered opts body n st s addr := by
  refine ⟨h.heap, h.bounds, h.entry, fun c b hb => ?_⟩
  by_cases hc : c = k
  · subst hc
    obtain rfl : main = b := Option.some.inj (h.key.symm.trans hb)
    refine ⟨_, addr, List.prefix_refl _, h.code, h.recorded, h.gap,
      fun hlt => absurd hlt (lt_irrefl _),
      .inl (le_refl _), ?_⟩
    exact h.start.imp id fun hk => le_of_eq hk.1.symm
  · obtain ⟨hrec, hrest⟩ := h.rest c b hb hc
    exact Covered.rest hrec hrest

theorem Work.covered (h : Work opts body n st bad s addr main k l) :
    Covered opts body n st s addr := by
  refine ⟨h.heap, h.bounds, h.entry, fun c b hb => ?_⟩
  by_cases hc : c = k
  · subst hc
    obtain rfl : main = b := Option.some.inj (h.key.symm.trans hb)
    refine ⟨l, addr, h.pre, h.code, h.recorded, fun c hc => (h.gap c hc).imp_right le_of_lt,
      fun hlt => absurd hlt (lt_irrefl _), .inl (le_refl _), ?_⟩
    exact (Nat.eq_or_lt_of_le h.le).symm.imp id fun hk => le_of_eq hk.symm
  · obtain ⟨hrec, hrest⟩ := h.rest c b hb hc
    exact Covered.rest hrec (hrest.imp_right fun hr => ⟨le_of_lt hr.1, hr.2⟩)

namespace Covered

/-- An address is in the map of the block whose code it is. -/
theorem get?_isSome {b e a : Nat} (hcode : Code opts body s k l e) (hrec : Recorded s b l) :
    ((s.bbs b).instrMap.get? a).isSome ↔ k ≤ a ∧ a < e ∧ a % 4 = k % 4 := by
  rw [← hcode.marked, Option.isSome_iff_exists]
  constructor
  · rintro ⟨i, hi⟩
    obtain ⟨x, hx, rfl, hm⟩ := (hrec a i).mp hi
    exact ⟨x, hx, hm⟩
  · rintro ⟨x, hx, hm⟩
    exact ⟨x.id, (hrec a x.id).mpr ⟨x, hx, rfl, hm⟩⟩

/-- The block of the greatest address up to `a` holds `a`. -/
theorem holds (h : Covered opts body n st s addr) {a b : Nat} (ha : a < addr) (hmod : a % 4 = 0)
    (hb : s.findBB k = some b) (hle : k ≤ a) (hmax : ∀ c, HasBB s c → c ≤ a → c ≤ k) :
    ((s.bbs b).instrMap.get? a).isSome := by
  obtain ⟨l, e, -, hcode, hrec, -, hend, -, hlt⟩ := h.block k b hb
  have hk := (h.bounds k ⟨b, hb⟩).2
  rw [get?_isSome hcode hrec]
  refine ⟨hle, ?_, hmod.trans hk.symm⟩
  by_contra hge
  have := hmax e (hend (by omega)) (by omega)
  omega

theorem indexed (h : Covered opts body n st s addr) {b : Nat} (hb : s.findBB k = some b) :
    Indexed s k b := by
  obtain ⟨l, e, hpre, hcode, hrec, -⟩ := h.block k b hb
  obtain ⟨c, -, hmarks⟩ := hcode.marks
  -- The items are the marked instructions, with their marks.
  let items := l.filterMap fun i => (s.marks i.id).map (·, i.id)
  have hfst : items.map Prod.fst = List.range' k c 4 := by
    rw [← hmarks, List.map_filterMap]
    refine congrArg (List.filterMap · l) (funext fun i => ?_)
    cases s.marks i.id <;> rfl
  have hsorted : items.Pairwise fun i j => i.1 < j.1 := by
    have hr : (items.map Prod.fst).Pairwise (· < ·) := by
      rw [hfst]
      exact List.pairwise_lt_range' 4
    exact List.pairwise_map.mp hr
  have hdata : (s.bbs b).instrMap.data = items := by
    refine Map.data_eq hsorted fun a i => ?_
    rw [hrec, List.mem_filterMap]
    refine exists_congr fun x => and_congr_right fun _ => ?_
    rw [Option.map_eq_some_iff]
    constructor
    · rintro ⟨rfl, hm⟩
      exact ⟨a, hm, rfl⟩
    · rintro ⟨a', hm, heq⟩
      obtain ⟨rfl, rfl⟩ := Prod.mk.inj heq
      exact ⟨rfl, hm⟩
  refine ⟨⟨c, by rw [hdata, hfst]⟩, ?_⟩
  rw [hdata]
  refine List.Sublist.trans ?_ (hpre.sublist.map Instr.id)
  have hsnd : items.map Prod.snd = (l.filter fun i => (s.marks i.id).isSome).map Instr.id := by
    rw [List.map_filterMap, ← List.filterMap_eq_map, List.filterMap_filter]
    refine congrArg (List.filterMap · l) (funext fun i => ?_)
    cases s.marks i.id <;> rfl
  rw [hsnd]
  exact List.filter_sublist.map Instr.id

theorem partition (h : Covered opts body n st s addr) : Partition s st addr := by
  refine ⟨fun a hst ha hmod => ?_, fun k b a hb hget => ?_, fun k b hb => h.indexed hb⟩
  · obtain ⟨k, b, -, hb, hle, hmax⟩ := Mid.getBackBB_spec h.entry hst
    refine ⟨b, ⟨⟨k, hb⟩, h.holds ha hmod hb hle hmax⟩, ?_⟩
    rintro b' ⟨⟨k', hb'⟩, hget⟩
    obtain ⟨l, e, -, hcode, hrec, hsep, -⟩ := h.block k' b' hb'
    obtain ⟨hk', he, -⟩ := (get?_isSome hcode hrec).mp hget
    have := hmax k' ⟨b', hb'⟩ hk'
    have hkk : k = k' := by
      rcases hsep k ⟨b, hb⟩ with hc | hc <;> omega
    subst hkk
    exact Option.some.inj (hb'.symm.trans hb)
  · obtain ⟨l, e, -, hcode, hrec, -, -, he, -⟩ := h.block k b hb
    obtain ⟨hka, hae, hmod⟩ := (get?_isSome hcode hrec).mp hget
    obtain ⟨hst, hk⟩ := h.bounds k ⟨b, hb⟩
    exact ⟨by omega, by omega, by omega⟩

theorem lands (h : Covered opts body n st s addr) (hst : st ≤ tgt) (hlt : tgt < addr)
    (hmod : tgt % 4 = 0) : Lands s tgt := by
  obtain ⟨k, b, hback, hb, hle, hmax⟩ := Mid.getBackBB_spec h.entry hst
  have hget := h.holds hlt hmod hb hle hmax
  obtain ⟨l, e, hpre, hcode, hrec, -⟩ := h.block k b hb
  have haddr : (s.bbs b).addr = some k := (h.heap.tracked k b hb).2.2.1
  have hin : targetInBounds tgt (s.bbs b) = .ok true := by
    have hend : tgt < k + (s.bbs b).insts.length * 4 := by
      have := ((get?_isSome hcode hrec).mp hget).2.1
      have := hcode.length
      have := hpre.length_le
      omega
    simp only [targetInBounds, BasicBlock.getAddr, haddr]
    show Except.ok (State.inBounds tgt k _) = Except.ok true
    rw [State.inBounds, decide_eq_true ⟨hle, hend⟩]
  have hsplit : ∃ b' t, s.split b tgt = .ok (b', t) := by
    obtain ⟨i, hi⟩ := Option.isSome_iff_exists.mp hget
    obtain ⟨x, hx, rfl, -⟩ := (hrec tgt i).mp hi
    have hany : (s.bbs b).insts.any (·.id = x.id) = true :=
      List.any_eq_true.mpr ⟨x, hpre.subset hx, decide_eq_true rfl⟩
    unfold State.split
    simp only [hi, if_pos hany]
    exact ⟨_, _, rfl⟩
  refine ⟨⟨k, b, hback, hb, hget, hin, hsplit⟩, ?_⟩
  unfold State.jumpBackward
  rw [hback]
  show ∃ c t, (targetInBounds tgt (s.bbs b) >>= _) = _
  rw [hin]
  simp only [BasicBlock.getAddr, haddr]
  by_cases hk : k = tgt
  · exact ⟨b, s, if_pos hk⟩
  · obtain ⟨b', t, hsp⟩ := hsplit
    exact ⟨b', _, by show (if k = tgt then _ else _) = _; rw [if_neg hk, hsp]; rfl⟩

end Covered

/-- **The blocks of a function partition it.** At every head of the loop the tracked blocks
divide the translated addresses up, and a jump back lands in the block of its target, also
once the instruction that jumps has begun. -/
theorem blocks_partition (opts : Options) (body : Nat → Inst) (s : State) (f : FnId)
    (st prologue : Nat) (hst : st % 4 = 0) (addr : Nat) (t : State)
    (h : Reach opts body st ((s.newFunction f).start st prologue) addr t) :
    Partition t st addr ∧ ∀ tgt, st ≤ tgt → tgt < addr → tgt % 4 = 0 →
      Lands t tgt ∧ ∀ c, Lands ((t.updateCurrentBB addr).reset.ops c) tgt := by
  obtain ⟨main, k, hinv, -⟩ := h.inv hst
  refine ⟨hinv.covered.partition, fun tgt hle hlt hmod => ⟨hinv.covered.lands hle hlt hmod, ?_⟩⟩
  intro c
  obtain ⟨main', k', l, hmid, -⟩ := hinv.head
  obtain ⟨⟨m, hm⟩, -⟩ := hmid.ops c
  exact hm.toWork.covered.lands hle hlt hmod

/-- The jump at 8 goes back into the middle of a block. -/
def loopBody : Nat → Inst
  | 8 => ⟨0, .jump 4, fun _ h => by cases h; rfl⟩
  | _ => .straight 1

/-- A state without blocks. -/
def emptyState : State where
  bbs _ := {f := 0}
  nextBlock := 0
  nextInstr := 0
  marks _ := none
  layout _ := []
  bld := {}
  func := {f := 0}
  pending := Map.empty
  sections _ := []

theorem blocks_partition_loop : ∃ t, Partition t 0 12 ∧ Lands t 4 := by
  have htgt : ∀ a tgt, 0 ≤ a → a < 0 + 4 * 3 → a % 4 = 0 →
      (loopBody a).act.target? = some tgt → 0 ≤ tgt ∧ tgt ≠ a := by
    intro a tgt _ _ _ h
    unfold loopBody at h
    split at h
    · obtain rfl := Option.some.inj h
      exact ⟨Nat.zero_le _, by decide⟩
    · exact nomatch h
  have hstart : Reach {} loopBody 0 ((emptyState.newFunction 0).start 0 2) 0 _ := .start
  obtain ⟨t, ht⟩ := hstart.runs rfl 3 (fun _ _ _ => rfl) htgt
  have h := blocks_partition {} loopBody emptyState 0 0 2 rfl 12 t (hstart.translateInstrs 3 ht)
  exact ⟨t, h.1, (h.2 4 (by decide) (by decide) rfl).1⟩

end RiscvSbt.Block
