import RiscvSbt.Block.Flow
import RiscvSbt.Block.Placed
import RiscvSbt.Whole.Emitted

/-! The way through the blocks of a function.

A function of the module that is complete is a `Routine`: each of its blocks is the code of
consecutive guest instructions, made of the pieces that these were translated to. Wherever control
`Stands` before the code of an instruction, it gets to the piece of the instruction without doing
anything, and behind it to the code of the next one, or to the terminator that the instruction
calls for (`Stands.own`). -/
namespace RiscvSbt.Whole
open Block (Inst Kind Options State Code Ends Term Past Coded Inside Straight
  Quiet piece terminator)
open Library

/-! ### Origins -/

variable {marks : Nat → Option Nat} {i a m : Nat}

/-- Where an instruction comes from: the last mark that is not behind it. -/
theorem origin_eq_some : origin marks i = some (a, m) ↔
    m ≤ i ∧ marks (i - m) = some a ∧ ∀ j, i - m < j → j ≤ i → marks j = none := by
  induction i generalizing m with
  | zero =>
    unfold origin
    rw [Option.map_eq_some_iff]
    constructor
    · rintro ⟨a', ha, heq⟩
      obtain ⟨rfl, rfl⟩ := Prod.mk.inj heq
      exact ⟨le_refl _, ha, fun j h₁ h₂ => by omega⟩
    · rintro ⟨hm, ha, -⟩
      obtain rfl : m = 0 := Nat.le_zero.mp hm
      exact ⟨a, ha, rfl⟩
  | succ i ih =>
    unfold origin
    cases hi : marks (i + 1) with
    | some a' =>
      constructor
      · intro h
        obtain ⟨rfl, rfl⟩ := Prod.mk.inj (Option.some.inj h)
        exact ⟨Nat.zero_le _, hi, fun j h₁ h₂ => by omega⟩
      · rintro ⟨hm, ha, hnone⟩
        cases m with
        | zero =>
          obtain rfl : a' = a := Option.some.inj (hi.symm.trans ha)
          rfl
        | succ m =>
          have := hnone (i + 1) (by omega) (le_refl _)
          rw [hi] at this
          cases this
    | none =>
      dsimp only
      rw [Option.map_eq_some_iff]
      constructor
      · rintro ⟨⟨a', m'⟩, h, heq⟩
        obtain ⟨rfl, rfl⟩ := Prod.mk.inj heq
        obtain ⟨hm, ha, hnone⟩ := ih.mp h
        refine ⟨by omega, by rwa [Nat.add_sub_add_right], fun j h₁ h₂ => ?_⟩
        by_cases hj : j = i + 1
        · rw [hj, hi]
        · exact hnone j (by omega) (by omega)
      · rintro ⟨hm, ha, hnone⟩
        cases m with
        | zero =>
          rw [Nat.sub_zero, hi] at ha
          cases ha
        | succ m =>
          rw [Nat.add_sub_add_right] at ha
          exact ⟨(a, m), ih.mpr ⟨by omega, ha, fun j h₁ h₂ => hnone j (by omega) (by omega)⟩, rfl⟩

/-! ### Routines -/

/-- The module, with the maps of the function that the blocks belong to. -/
def Module.view (M : Module) (blocks : Block.Function) : State := {M.blk with func := blocks}

/-- What an instruction of a function is: the first one of a guest instruction if it is marked, and
nothing to run if it belongs to none. -/
structure Owned (M : Module) (st e : Nat) (first : Nat → Nat) (i : Block.Instr) : Prop where
  mark : ∀ a, M.blk.marks i.id = some a →
    Past st e a ∧ i.id = first a ∧ (0 < (M.inst a).ops → i.kind = .op)
  plain : i.kind = .op → (∀ m, Coded M.inst st e first m → i ∉ m) → M.content i.id = some none

/-- A function of the module, for the guest instructions from `st` up to `e`. -/
structure Routine (M : Module) (opts : Options) where
  blocks : Block.Function
  st : Nat
  e : Nat
  first : Nat → Nat
  aligned : st % 4 = 0
  bound : e ≤ 2 ^ 32
  next : Inside M.inst st e
  origin : ∀ a m, Past st e a → m < (M.inst a).ops → origin M.blk.marks (first a + m) = some (a, m)
  block : ∀ c b, (M.view blocks).findBB c = some b → c < e →
    ((terminator (M.blk.bbs b).insts).isSome ∧
      ∃ e', Code opts M.inst (M.view blocks) c (M.blk.bbs b).insts e' ∧ c < e') ∧
    Segmented (Coded M.inst st e first) (M.blk.bbs b).insts ∧
    ∀ i ∈ (M.blk.bbs b).insts, Owned M st e first i
  calls : ∀ a t, Past st e a → Context.State.callee? (M.inst a).act = some t →
    ∃ f, M.callee a = some f

variable {M : Module} {opts : Options} {F : Routine M opts} {s s' : Process} {n n' : Nat}
  {l l' q : List Block.Instr} {e' : Nat}

/-- The rest of a block, where control is to run the code of the instruction at `a`. -/
structure Stands (F : Routine M opts) (a : Nat) (l : List Block.Instr) : Prop where
  past : Past F.st F.e a
  terminated : (terminator l).isSome
  code : ∃ e', Code opts M.inst (M.view F.blocks) a l e'
  segmented : Segmented (Coded M.inst F.st F.e F.first) l
  owned : ∀ i ∈ l, Owned M F.st F.e F.first i

/-- Where the piece of the instruction at `a` has been run. -/
inductive After (F : Routine M opts) (a : Nat) : List Block.Instr → Prop where
  | on {l : List Block.Instr} (stays : (M.inst a).act.stays opts = true)
      (stands : Stands F (a + 4) l) : After F a l
  | ends {q : List Block.Instr} {i : Block.Instr}
      (plain : ∀ j ∈ q, j.kind = .op ∧ M.content j.id = some none)
      (term : Term opts M.inst (M.view F.blocks) a i.kind) : After F a (q ++ [i])

/-! ### Steps -/

namespace Module
variable {j : Block.Instr}

theorem step_nop (hs : s.rest = j :: l) (kind : j.kind = .op)
    (content : M.content j.id = some none) :
    M.step s = some {s with rest := l} := by
  unfold Module.step
  rw [hs]
  dsimp only
  rw [kind, content]
  rfl

theorem step_op {op : Op} (hs : s.rest = j :: l) (kind : j.kind = .op)
    (content : M.content j.id = some (some op)) : M.step s = M.exec op {s with rest := l} := by
  unfold Module.step
  rw [hs]
  dsimp only
  rw [kind, content]
  rfl

theorem step_br {b : Nat} (hs : s.rest = j :: l) (kind : j.kind = .br b) :
    M.step s = some {s with rest := (M.blk.bbs b).insts} := by
  unfold Module.step
  rw [hs]
  dsimp only
  rw [kind]

theorem step_cond {u v : Nat} (hs : s.rest = j :: l) (kind : j.kind = .condBr (.guest a) u v) :
    M.step s = (M.test a s).map fun b =>
    {s with rest := (M.blk.bbs (if b then u else v)).insts} := by
  unfold Module.step
  rw [hs]
  dsimp only
  rw [kind]

theorem test_eq {e : Emitted} {cond : Ir.Ref} {v : BitVec 1} (he : M.text.emit a = some e)
    (hc : e.cond = some cond) (hv : cond.eval s.ir = .i1 v) :
    M.test a s = some (decide (v = 1)) := by
  unfold Module.test
  simp only [he, hc, hv, Option.bind_eq_bind, Option.bind_some]

theorem step_end (hs : s.rest = j :: l) (kind : j.kind = .ret) (stack : s.stack = []) :
    M.step s = some {s with rest := []} := by
  unfold Module.step
  simp only [hs, kind, stack]

theorem step_ret {frame : Frame} {frames : List Frame} (hs : s.rest = j :: l) (kind : j.kind = .ret)
    (stack : s.stack = frame :: frames) :
    M.step s = some {s with rest := frame.rest, env := frame.env, stack := frames} := by
  unfold Module.step
  simp only [hs, kind, stack]

end Module

theorem steps_one (h : M.step s = some s') : steps M.step 1 s = some s' := by
  show M.step s >>= some = _
  rw [h]
  rfl

theorem steps_trans {s'' : Process} (h : steps M.step n s = some s')
    (h' : steps M.step n' s' = some s'') :
    steps M.step (n + n') s = some s'' := by
  rw [steps_add, h]
  exact h'

/-- The machine goes on from `l` at `l'` in `n` steps, whatever its state is. -/
def Skips (M : Module) (n : Nat) (l l' : List Block.Instr) : Prop :=
  ∀ s : Process, s.rest = l → steps M.step n s = some {s with rest := l'}

namespace Skips

theorem refl (l : List Block.Instr) : Skips M 0 l l := by
  rintro s rfl
  rfl

theorem trans {l₁ l₂ l₃ : List Block.Instr} (h : Skips M n l₁ l₂) (h' : Skips M n' l₂ l₃) :
    Skips M (n + n') l₁ l₃ := fun s hs => steps_trans (h s hs) (h' _ rfl)

theorem op {i : Block.Instr} (kind : i.kind = .op) (content : M.content i.id = some none) :
    Skips M 1 (i :: l) l := fun _ hs => steps_one (Module.step_nop hs kind content)

theorem br {i : Block.Instr} {b : Nat} (kind : i.kind = .br b) :
    Skips M 1 (i :: l) (M.blk.bbs b).insts := fun _ hs => steps_one (Module.step_br hs kind)

/-- Instructions that do nothing. -/
theorem all (h : ∀ j ∈ q, j.kind = .op ∧ M.content j.id = some none) :
    Skips M q.length (q ++ l) l := by
  induction q with
  | nil => exact .refl l
  | cons i q ih =>
    obtain ⟨hk, hc⟩ := h i List.mem_cons_self
    have hq := ih fun j hj => h j (List.mem_cons_of_mem _ hj)
    rw [List.length_cons, Nat.add_comm]
    exact (op hk hc).trans hq

end Skips

/-- A piece of emitted code runs as the code does. -/
theorem run_piece {code : List Ir.Instr} {t : Ir.State}
    (h : ∀ m j, code[m]? = some j → M.content (i + m) = some (some (.ir j)))
    (hs : s.rest = piece i code.length ++ l) (ht : Ir.run code s.ir = some t) :
    steps M.step code.length s = some {s with rest := l, env := t.env, x := t.x, mem := t.mem} := by
  induction code generalizing i s with
  | nil =>
    obtain rfl : s.ir = t := Option.some.inj ht
    obtain rfl : s.rest = l := hs
    rfl
  | cons j code ih =>
    obtain ⟨u, hu, ht⟩ := Option.bind_eq_some_iff.mp ht
    rw [List.length_cons, Block.piece_succ, List.cons_append] at hs
    let s₁ : Process := {s with
      rest := piece (i + 1) code.length ++ l, env := u.env, x := u.x, mem := u.mem}
    have hstep : M.step s = some s₁ := by
      rw [Module.step_op hs rfl (h 0 j rfl)]
      show (Ir.step j s.ir).map _ = _
      rw [hu]
      rfl
    have hrest : steps M.step code.length s₁ = _ := ih (s := s₁) (fun m k hk => ?_) rfl ht
    · rw [List.length_cons, Nat.add_comm]
      exact steps_trans (steps_one hstep) hrest
    · rw [Nat.add_assoc, Nat.add_comm 1]
      exact h (m + 1) k hk

/-! ### Walking through a routine -/

namespace Routine

/-- The first instruction of a piece is marked. -/
theorem marked (F : Routine M opts) (ha : Past F.st F.e a) (hc : 0 < (M.inst a).ops) :
    M.blk.marks (F.first a) = some a :=
  (origin_eq_some.mp (F.origin a 0 ha hc)).2.1

/-- The others are not. -/
theorem unmarked (F : Routine M opts) (ha : Past F.st F.e a) (hm : m + 1 < (M.inst a).ops) :
    M.blk.marks (F.first a + (m + 1)) = none :=
  (origin_eq_some.mp (F.origin a (m + 1) ha hm)).2.2 _ (by omega) (le_refl _)

/-- Of an instruction that is not marked, none of a piece is the first one. -/
theorem skip (F : Routine M opts) {i : Block.Instr}
    (h : Segmented (Coded M.inst F.st F.e F.first) (i :: l)) (hi : M.blk.marks i.id = none) :
    (∀ m, Coded M.inst F.st F.e F.first m → i ∉ m) ∧
    Segmented (Coded M.inst F.st F.e F.first) l := by
  rcases h.cons_cases with h | ⟨m, l', ⟨c, hc, hpos, heq⟩, -, -⟩
  · exact h
  · obtain ⟨k, hk⟩ := Nat.exists_eq_succ_of_ne_zero (Nat.ne_of_gt hpos)
    rw [hk, Nat.succ_eq_add_one, Block.piece_succ] at heq
    obtain ⟨rfl, -⟩ := List.cons.inj heq
    rw [F.marked hc hpos] at hi
    cases hi

/-- What is behind the first instruction of a piece. -/
theorem quiet_tail (F : Routine M opts) (ha : Past F.st F.e a) {c : Nat}
    (hc : (M.inst a).ops = c + 1) :
    Quiet (M.view F.blocks) (piece (F.first a + 1) c) := by
  intro j hj
  obtain ⟨hk, h₁, h₂⟩ := Block.mem_piece.mp hj
  refine ⟨hk, ?_⟩
  have hm := F.unmarked ha (show j.id - (F.first a + 1) + 1 < (M.inst a).ops by omega)
  rwa [show F.first a + (j.id - (F.first a + 1) + 1) = j.id by omega] at hm

/-- Code without marks that belongs to no instruction. -/
theorem quiet (F : Routine M opts) (hq : Quiet (M.view F.blocks) q)
    (h : Segmented (Coded M.inst F.st F.e F.first) (q ++ l))
    (ho : ∀ i ∈ q, Owned M F.st F.e F.first i) : ∀ j ∈ q, j.kind = .op ∧ M.content j.id =
    some none := by
  induction q with
  | nil => exact fun j hj => nomatch hj
  | cons i q ih =>
    obtain ⟨hk, hm⟩ := hq i List.mem_cons_self
    obtain ⟨hout, hrest⟩ := F.skip h hm
    intro j hj
    rcases List.mem_cons.mp hj with rfl | hj
    · exact ⟨hk, (ho j List.mem_cons_self).plain hk hout⟩
    · exact ih (fun x hx => hq x (List.mem_cons_of_mem _ hx)) hrest
        (fun x hx => ho x (List.mem_cons_of_mem _ hx)) j hj

end Routine

/-- Behind instructions without marks there is the rest of the same code. -/
theorem code_drop {opts : Options} {body : Nat → Inst} {t : State} (hq : Quiet t q)
    (h : Code opts body t a (q ++ l) e') : Code opts body t a l e' := by
  induction q with
  | nil => exact h
  | cons i q ih =>
    obtain ⟨hk, hm⟩ := hq i List.mem_cons_self
    rw [List.cons_append] at h
    generalize hr : q ++ l = r at h
    cases h with
    | glue mark kind => exact nomatch hk.symm.trans kind
    | term mark term => exact nomatch hk ▸ term.isTerminator
    | visit kind mark | enter kind mark => exact nomatch hm.symm.trans mark
    | skip kind mark rest => exact ih (fun j hj => hq j (List.mem_cons_of_mem _ hj)) (hr ▸ rest)

theorem terminator_drop {t : State} (hq : Quiet t q) (h : (terminator (q ++ l)).isSome) :
    (terminator l).isSome := by
  induction q with
  | nil => exact h
  | cons i q ih =>
    exact ih (fun j hj => hq j (List.mem_cons_of_mem _ hj))
      (Block.terminator_cons (hq i List.mem_cons_self).1 h)

theorem ends_drop {opts : Options} {body : Nat → Inst} {t : State} (hq : Quiet t q)
    (h : Ends opts body t a (q ++ l)) : Ends opts body t a l := by
  induction q with
  | nil => exact h
  | cons i q ih =>
    obtain ⟨hk, hm⟩ := hq i List.mem_cons_self
    rw [List.cons_append] at h
    generalize hr : q ++ l = r at h
    cases h with
    | term mark term => exact nomatch hk ▸ term.isTerminator
    | skip kind mark rest => exact ih (fun j hj => hq j (List.mem_cons_of_mem _ hj)) (hr ▸ rest)

namespace Stands

/-- At the head of the block of an instruction. -/
theorem block {b : Nat} (hb : (M.view F.blocks).findBB a = some b) (ha : Past F.st F.e a) :
    Stands F a (M.blk.bbs b).insts := by
  obtain ⟨⟨hterm, e', hcode, -⟩, hseg, hown⟩ := F.block a b hb ha.2.1
  exact ⟨ha, hterm, ⟨e', hcode⟩, hseg, hown⟩

/-- Behind an instruction that does nothing. -/
theorem tail {i : Block.Instr} (h : Stands F a (i :: l)) (kind : i.kind = .op)
    (mark : M.blk.marks i.id = none) (rest : Code opts M.inst (M.view F.blocks) a l e') :
    M.content i.id = some none ∧ Stands F a l := by
  obtain ⟨hout, hseg⟩ := F.skip h.segmented mark
  exact ⟨(h.owned i List.mem_cons_self).plain kind hout, h.past,
    Block.terminator_cons kind h.terminated,
    ⟨e', rest⟩, hseg, fun j hj => h.owned j (List.mem_cons_of_mem _ hj)⟩

/-- In the block of an instruction, control gets to its first LLVM instruction. -/
theorem arrive_own (h : Stands F a l) (hcode : Code opts M.inst (M.view F.blocks) a l e')
    (he : a < e') :
    ∃ n i r, Skips M n l (i :: r) ∧ Stands F a (i :: r) ∧ M.blk.marks i.id = some a := by
  induction hcode with
  | stop a => omega
  | glue mark kind find => omega
  | skip kind mark rest ih =>
    obtain ⟨hc, ht⟩ := h.tail kind mark rest
    obtain ⟨n, i, r, hskip, hi⟩ := ih ht he
    exact ⟨_, i, r, (Skips.op kind hc).trans hskip, hi⟩
  | visit kind mark | enter kind mark | term mark => exact ⟨0, _, _, .refl _, h, mark⟩

/-- The same from wherever it stands: the code before may branch there. -/
theorem arrive (h : Stands F a l) :
    ∃ n i r, Skips M n l (i :: r) ∧ Stands F a (i :: r) ∧ M.blk.marks i.id = some a := by
  obtain ⟨e', hcode⟩ := h.code
  induction hcode with
  | stop a => exact nomatch h.terminated
  | glue mark kind find =>
    obtain ⟨⟨-, e', hcode, he⟩, -⟩ := F.block _ _ find h.past.2.1
    obtain ⟨n, i, r, hskip, hi⟩ := (Stands.block find h.past).arrive_own hcode he
    exact ⟨_, i, r, (Skips.br kind).trans hskip, hi⟩
  | skip kind mark rest ih =>
    obtain ⟨hc, ht⟩ := h.tail kind mark rest
    obtain ⟨n, i, r, hskip, hi⟩ := ih ht
    exact ⟨_, i, r, (Skips.op kind hc).trans hskip, hi⟩
  | visit kind mark | enter kind mark | term mark => exact ⟨0, _, _, .refl _, h, mark⟩

/-- Behind the piece of an instruction, given what code follows it. -/
theorem after {r : List Block.Instr} (ha : Past F.st F.e a)
    (hterm : (terminator r).isSome) (hseg : Segmented (Coded M.inst F.st F.e F.first) r)
    (hown : ∀ j ∈ r, Owned M F.st F.e F.first j)
    (h : ((M.inst a).act.stays opts = true ∧ ∃ e', Code opts M.inst (M.view F.blocks)
    (a + 4) r e') ∨
      Ends opts M.inst (M.view F.blocks) a r) : After F a r := by
  have hmod := F.aligned
  obtain ⟨h₁, h₂, h₃⟩ := ha
  rcases h with ⟨hstays, e', hcode⟩ | hends
  · obtain ⟨h₄, h₅, h₆⟩ := F.next a false (a + 4) h₁ h₂ (by omega)
      (Block.Act.succ_falls (Block.Act.falls_of_stays hstays) a)
    exact .on hstays ⟨⟨h₄, h₅, by omega⟩, hterm, ⟨e', hcode⟩, hseg, hown⟩
  · obtain ⟨q, j, rfl, hq, -, ht⟩ := hends.terminator
    exact .ends (F.quiet hq hseg fun x hx => hown x (List.mem_append_left _ hx)) ht

/-- **The piece of an instruction.** From wherever control stands before it, it gets there and has
it in front of what comes after; an instruction without a piece is passed by something that does
nothing, or is its terminator. -/
theorem own (h : Stands F a l) : ∃ n l', Skips M n l (piece (F.first a) (M.inst a).ops ++ l') ∧
    After F a l' ∧ ((M.inst a).act.stays opts = true → 0 < n + (M.inst a).ops) := by
  obtain ⟨n, i, r, hskip, ⟨ha, hterm, ⟨e', hcode⟩, hseg, hown⟩, hi⟩ := h.arrive
  obtain ⟨-, hid, hkind⟩ := (hown i List.mem_cons_self).mark a hi
  have hrest : ∀ j ∈ r, Owned M F.st F.e F.first j := fun j hj => hown j (List.mem_cons_of_mem _ hj)
  rcases hseg.cons_cases with ⟨hout, hseg'⟩ | ⟨m, l', ⟨c, hc, hpos, heq⟩, rfl, hseg'⟩
  · -- There is no piece.
    have hzero : (M.inst a).ops = 0 := by
      by_contra hpos
      have hpos := Nat.pos_of_ne_zero hpos
      refine hout _ ⟨a, ha, hpos, rfl⟩ (Block.mem_piece.mpr ⟨hkind hpos, ?_⟩)
      omega
    rw [hzero]
    cases hcode with
    | glue mark | skip _ mark => cases hi.symm.trans mark
    | visit kind mark act rest =>
      have hplain := (hown i List.mem_cons_self).plain kind hout
      exact ⟨n + 1, r, hskip.trans (.op kind hplain),
        after ha (Block.terminator_cons kind hterm) hseg' hrest (.inl ⟨act, _, rest⟩),
        fun _ => by omega⟩
    | enter kind mark rest =>
      have hplain := (hown i List.mem_cons_self).plain kind hout
      exact ⟨n + 1, r, hskip.trans (.op kind hplain),
        after ha (Block.terminator_cons kind hterm) hseg' hrest (.inr rest), fun _ => by omega⟩
    | term mark term =>
      refine ⟨n, [i], hskip, .ends (q := []) (fun j hj => absurd hj List.not_mem_nil) term,
        fun hs => ?_⟩
      rw [term.not_stays] at hs
      cases hs
  · -- The piece that begins here is that of the instruction.
    obtain ⟨k, hk⟩ := Nat.exists_eq_succ_of_ne_zero (Nat.ne_of_gt hpos)
    rw [hk, Nat.succ_eq_add_one, Block.piece_succ] at heq
    obtain ⟨rfl, rfl⟩ := List.cons.inj heq
    obtain rfl : c = a := Option.some.inj ((F.marked hc hpos).symm.trans hi)
    have hquiet := F.quiet_tail hc hk
    have hpiece : piece (F.first c) (M.inst c).ops ++ l' =
        ⟨F.first c, .op⟩ :: (piece (F.first c + 1) k ++ l') := by
      rw [hk, Nat.succ_eq_add_one, Block.piece_succ]
      rfl
    have hterm' := terminator_drop hquiet (Block.terminator_cons rfl hterm)
    have hrest' : ∀ j ∈ l', Owned M F.st F.e F.first j := fun j hj =>
      hrest j (List.mem_append_right _ hj)
    refine ⟨n, l', hpiece ▸ hskip, ?_, fun _ => by omega⟩
    generalize hr : piece (F.first c + 1) k ++ l' = r at hcode
    cases hcode with
    | glue mark | skip _ mark => cases hi.symm.trans mark
    | visit kind mark act rest =>
      exact after ha hterm' hseg' hrest' (.inl ⟨act, _, code_drop hquiet (hr ▸ rest)⟩)
    | enter kind mark rest =>
      exact after ha hterm' hseg' hrest' (.inr (ends_drop hquiet (hr ▸ rest)))
    | term mark term => cases term.isTerminator

end Stands

end RiscvSbt.Whole
