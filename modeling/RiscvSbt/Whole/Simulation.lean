import RiscvSbt.Library.Simulation
import RiscvSbt.Syscall.Handler
import RiscvSbt.Syscall.Trace
import RiscvSbt.Whole.Walk

/-! The module does what the guest does.

A guest that stands before an instruction is matched by a process that stands before the code of it,
and whose stack has a frame for each call in progress. A frame of a tail call is one that nothing
but its return is left of, so that a return goes through all of these at once (`Stacked.unwind`). -/
namespace RiscvSbt.Whole
open Isa (Word Reg)
open Block (Options Past FnId piece Act Term)
open Library
open Syscall (Service)

section Predicates
variable (M : Module) (opts : Options)

/-- A function of the module is a routine, that its first block is the entry of. -/
def Enters (f : FnId) (k : Nat) : Prop :=
  ∃ F : Routine M opts, F.st = k ∧ F.st < F.e ∧
    ∃ b rest, M.blk.layout f = b :: rest ∧ (M.view F.blocks).findBB k = some b

/-- Every call is one of a function that has the code of its target. -/
structure Complete : Prop where
  covers : M.text.Covers M.inst
  callees : ∀ a k f, Context.State.callee? (M.inst a).act = some k → M.callee a = some f →
    Enters M opts f k

/-- Nothing is left but a return, and reading what it answers. -/
def Returns (l : List Block.Instr) : Prop :=
  ∃ q i, l = q ++ [i] ∧ i.kind = .ret ∧ ∀ j ∈ q, j.kind = .op ∧
    (M.content j.id = some none ∨ ∃ n r, M.content j.id = some (some (.ir (.loadReg n r))))

/-- The frames of the calls in progress, between those of tail calls. -/
inductive Stacked : List Word → List Frame → Prop where
  | nil : Stacked [] []
  | call {r : Word} {rs : List Word} {frame : Frame} {frames : List Frame} (F : Routine M opts)
      (stands : Stands F r.toNat frame.rest) (rest : Stacked rs frames) :
      Stacked (r :: rs) (frame :: frames)
  | tail {rs : List Word} {frame : Frame} {frames : List Frame} (returns : Returns M frame.rest)
      (rest : Stacked rs frames) : Stacked rs (frame :: frames)

inductive Matches (g : Thread) (s : Process) : Prop where
  | running (F : Routine M opts) (ended : g.ended = false)
      (stands : Stands F g.hart.pc.toNat s.rest)
      (stack : Stacked M opts g.calls s.stack) (guest : s.guest = g.hart.toState)
      (trace : s.trace = g.trace)
  | ended (ended : g.ended = true) (rest : s.rest = []) (guest : s.guest = g.hart.toState)
      (trace : s.trace = g.trace)

end Predicates

variable {M : Module} {opts : Options} {F : Routine M opts} {g g' : Thread}
  {s : Process} {e : Emitted}
  {a m n : Nat} {l : List Block.Instr}

theorem Matches.guest (h : Matches M opts g s) : s.guest = g.hart.toState := by
  cases h with
  | running _ _ _ _ guest => exact guest
  | ended _ _ guest => exact guest

theorem Matches.trace (h : Matches M opts g s) : s.trace = g.trace := by
  cases h with
  | running _ _ _ _ _ trace => exact trace
  | ended _ _ _ trace => exact trace

/-! ### The code of an instruction -/

/-- A piece has what was emitted. -/
theorem Routine.content (F : Routine M opts) (hcov : M.text.Covers M.inst) (ha : Past F.st F.e a)
    (he : M.text.emit a = some e) {op : Op} (hop : e.ops[m]? = some op) :
    M.content (F.first a + m) = some (some op) := by
  have hlt : m < (M.inst a).ops := by
    rw [(hcov a e he).1]
    exact (List.getElem?_eq_some_iff.mp hop).1
  unfold Module.content
  rw [F.origin a m ha hlt]
  dsimp only
  rw [if_pos hlt, he]
  show e.ops[m]?.map some = _
  rw [hop]
  rfl

/-- Code that runs from the guest's state runs from the process's. -/
theorem Runs.at {code : List Ir.Instr} {v v' : Isa.State} {P : Ir.State → Prop}
    (h : Runs code v v' P)
    (hs : s.guest = v) :
    ∃ t, Ir.run code s.ir = some t ∧ (⟨t.x, t.mem⟩ : Isa.State) = v' ∧ P t := by
  subst hs
  exact h s.env

/-- **Running the code of an instruction**, up to what it does beside computing. -/
theorem Stands.run (h : Stands F a s.rest) (hcov : M.text.Covers M.inst)
    (he : M.text.emit a = some e) {code : List Ir.Instr} {ops : List Op}
    (hops : e.ops = code.map .ir ++ ops) {t : Ir.State} (ht : Ir.run code s.ir = some t) :
    ∃ n l', steps M.step n s = some {s with
        rest := piece (F.first a + code.length) ops.length ++ l'
        env := t.env, x := t.x, mem := t.mem} ∧
      After F a l' ∧ (e.act.stays opts = true → 0 < n + ops.length) ∧
      ∀ m op, ops[m]? = some op → M.content (F.first a + code.length + m) = some (some op) := by
  obtain ⟨n, l', hskip, hafter, hpos⟩ := h.own
  obtain ⟨hlen, hact⟩ := hcov a e he
  have hcount : (M.inst a).ops = code.length + ops.length := by
    rw [hlen, hops, List.length_append, List.length_map]
  have hpiece : piece (F.first a) (M.inst a).ops =
      piece (F.first a) code.length ++ piece (F.first a + code.length) ops.length := by
    rw [hcount]
    unfold piece
    rw [← List.map_append, List.range'_append_1]
  rw [hpiece, List.append_assoc] at hskip
  have hcontent : ∀ m op, e.ops[m]? = some op → M.content (F.first a + m) = some (some op) :=
    fun m op hop => F.content hcov h.past he hop
  refine ⟨n + code.length, l', steps_trans (hskip s rfl) (run_piece (fun m j hj => ?_) rfl ht),
    hafter,
    fun hs => ?_, fun m op hop => ?_⟩
  · refine hcontent m _ ?_
    rw [hops, List.getElem?_append_left (by
      rw [List.length_map]
      exact (List.getElem?_eq_some_iff.mp hj).1), List.getElem?_map, hj]
    rfl
  · have := hpos (hact ▸ hs)
    omega
  · rw [Nat.add_assoc]
    refine hcontent _ _ ?_
    rw [hops, List.getElem?_append_right (by rw [List.length_map]; omega), List.length_map,
      Nat.add_sub_cancel_left]
    exact hop

/-- Running the code of an instruction that only computes. -/
theorem Stands.compute (h : Stands F a s.rest) (hcov : M.text.Covers M.inst) {code : List Ir.Instr}
    {act : Act} {cond : Option Ir.Ref} (he : M.text.emit a = some ⟨code.map .ir, act, cond⟩)
    {t : Ir.State} (ht : Ir.run code s.ir = some t) :
    ∃ n l', steps M.step n s = some {s with rest := l', env := t.env, x := t.x, mem := t.mem} ∧
      After F a l' ∧ (act.stays opts = true → 0 < n) := by
  obtain ⟨n, l', hn, hafter, hpos, -⟩ := h.run hcov he (List.append_nil _).symm ht
  exact ⟨n, l', hn, hafter, hpos⟩

/-! ### Returning -/

/-- What is read before a return changes nothing that the guest has. -/
theorem Returns.run {q : List Block.Instr} {i : Block.Instr} (hs : s.rest = q ++ [i])
    (hq : ∀ j ∈ q, j.kind = .op ∧
      (M.content j.id = some none ∨ ∃ n r, M.content j.id = some (some (.ir (.loadReg n r))))) :
    ∃ n s', steps M.step n s = some s' ∧ s'.rest = [i] ∧ s'.stack = s.stack ∧ s'.guest = s.guest ∧
      s'.trace = s.trace := by
  induction q generalizing s with
  | nil => exact ⟨0, s, rfl, hs, rfl, rfl, rfl⟩
  | cons j q ih =>
    obtain ⟨hk, hc⟩ := hq j List.mem_cons_self
    obtain ⟨s₁, hstep, hrest, hstack, hguest, htrace⟩ : ∃ s₁, M.step s =
      some s₁ ∧ s₁.rest = q ++ [i] ∧
        s₁.stack = s.stack ∧ s₁.guest = s.guest ∧ s₁.trace = s.trace := by
      rcases hc with hc | ⟨n, r, hc⟩
      · exact ⟨_, Module.step_nop hs hk hc, rfl, rfl, rfl, rfl⟩
      · exact ⟨_, Module.step_op hs hk hc, rfl, rfl, rfl, rfl⟩
    obtain ⟨n, s', hn, h₁, h₂, h₃, h₄⟩ := ih hrest fun x hx => hq x (List.mem_cons_of_mem _ hx)
    exact ⟨1 + n, s', steps_trans (steps_one hstep) hn, h₁, h₂.trans hstack, h₃.trans hguest,
      h₄.trans htrace⟩

/-- **A return**, also out of the functions that have nothing left to do but that. -/
theorem Stacked.unwind {rs : List Word} {frames : List Frame} (h : Stacked M opts rs frames)
    (hret : Returns M s.rest) (hs : s.stack = frames) :
    ∃ n s', steps M.step (n + 1) s = some s' ∧ s'.guest = s.guest ∧ s'.trace = s.trace ∧
      ((rs = [] ∧ s'.rest = []) ∨
        ∃ r rs', rs = r :: rs' ∧ (∃ F : Routine M opts, Stands F r.toNat s'.rest) ∧
          Stacked M opts rs' s'.stack) := by
  induction h generalizing s with
  | nil =>
    obtain ⟨q, i, hrest, hi, hq⟩ := hret
    obtain ⟨n, s₁, hn, h₁, h₂, h₃, h₄⟩ := Returns.run hrest hq
    have hstep := M.step_end h₁ hi (h₂.trans hs)
    exact ⟨n, _, steps_trans hn (steps_one hstep), h₃, h₄, .inl ⟨rfl, rfl⟩⟩
  | call F stands rest =>
    obtain ⟨q, i, hrest, hi, hq⟩ := hret
    obtain ⟨n, s₁, hn, h₁, h₂, h₃, h₄⟩ := Returns.run hrest hq
    have hstep := M.step_ret h₁ hi (h₂.trans hs)
    exact ⟨n, _, steps_trans hn (steps_one hstep), h₃, h₄, .inr ⟨_, _, rfl, ⟨F, stands⟩, rest⟩⟩
  | tail returns rest ih =>
    obtain ⟨q, i, hrest, hi, hq⟩ := hret
    obtain ⟨n, s₁, hn, h₁, h₂, h₃, h₄⟩ := Returns.run hrest hq
    have hstep := M.step_ret h₁ hi (h₂.trans hs)
    obtain ⟨k, s', hk, hguest, htrace, hend⟩ := ih (s := {s₁ with
      rest := _, env := _, stack := _}) returns rfl
    refine ⟨n + 1 + k, s', ?_, hguest.trans h₃, htrace.trans h₄, hend⟩
    rw [Nat.add_assoc (n + 1)]
    exact steps_trans (steps_trans hn (steps_one hstep)) hk

/-! ### Terminators -/

section Terminators
variable {body : Nat → Block.Inst} {t : Block.State} {kind : Block.Kind} {k : Nat}

theorem term_ret (h : Term opts body t a kind)
    (hact : (body a).act = .ret ∨ ∃ k, (body a).act = .tail k) : kind = .ret := by
  cases h with
  | ret => rfl
  | branch act | jump act | ijump act =>
    rw [act] at hact
    rcases hact with hact | ⟨k, hact⟩
    · cases hact
    · cases hact
  | leave act =>
    rcases hact with hact | ⟨k, hact⟩
    · rw [hact] at act
      cases act
    · rw [hact] at act
      cases act

theorem term_branch (h : Term opts body t a kind) (hact : (body a).act = .branch k) :
    ∃ u v, kind = .condBr (.guest a) u v ∧ t.findBB k = some u ∧ t.findBB (a + 4) = some v := by
  cases h with
  | branch act target next =>
    obtain rfl := Act.branch.inj (act.symm.trans hact)
    exact ⟨_, _, rfl, target, next⟩
  | ret act => rcases act with act | ⟨_, act⟩ <;> exact nomatch act.symm.trans hact
  | jump act | ijump act => exact nomatch act.symm.trans hact
  | leave act =>
    rw [hact] at act
    cases act

theorem term_jump (h : Term opts body t a kind) (hact : (body a).act = .jump k) :
    ∃ u, kind = .br u ∧ t.findBB k = some u := by
  cases h with
  | jump act target =>
    obtain rfl := Act.jump.inj (act.symm.trans hact)
    exact ⟨_, rfl, target⟩
  | ret act => rcases act with act | ⟨_, act⟩ <;> exact nomatch act.symm.trans hact
  | branch act | ijump act => exact nomatch act.symm.trans hact
  | leave act =>
    rw [hact] at act
    cases act

end Terminators

/-- Code that stays in its block runs on to the next instruction. -/
theorem After.next (h : After F a l) (hs : (M.inst a).act.stays opts = true) :
    Stands F (a + 4) l := by
  cases h with
  | on _ stands => exact stands
  | ends _ term => exact nomatch hs.symm.trans term.not_stays

/-- Code that does not gets to its terminator. -/
theorem After.term (h : After F a l) (hs : (M.inst a).act.stays opts = false) :
    ∃ q i, l = q ++ [i] ∧ (∀ j ∈ q, j.kind = .op ∧ M.content j.id = some none) ∧
      Term opts M.inst (M.view F.blocks) a i.kind := by
  cases h with
  | on stays => exact nomatch stays.symm.trans hs
  | ends plain term => exact ⟨_, _, rfl, plain, term⟩

/-! ### One instruction -/

theorem pc_next {pc : Word} {k : Nat} (h : pc.toNat + 4 < k) (hk : k ≤ 2 ^ 32) :
    (pc + 4).toNat = pc.toNat + 4 := by
  rw [BitVec.toNat_add]
  exact Nat.mod_eq_of_lt (lt_of_lt_of_le h hk)

/-- A call gets to the code of its target. -/
theorem Complete.enter (hM : Complete M opts) (ha : Past F.st F.e a) {k : Nat} {j : Block.Instr}
    (hact : Context.State.callee? (M.inst a).act = some k) (hs : s.rest = j :: l)
    (hk : j.kind = .op)
    (hc : M.content j.id = some (some (.call a))) :
    ∃ s', M.step s = some s' ∧ (∃ F' : Routine M opts, Stands F' k s'.rest) ∧
      s'.stack = ⟨l, s.env⟩ :: s.stack ∧ s'.guest = s.guest ∧ s'.trace = s.trace := by
  obtain ⟨f, hf⟩ := F.calls a k ha hact
  obtain ⟨F', rfl, hlt, b, rest, hlay, hb⟩ := hM.callees a k f hact hf
  have hstep := M.step_op hs hk hc
  change M.step s = M.callee a >>= _ at hstep
  rw [hf] at hstep
  change M.step s = (M.blk.layout f).head?.map _ at hstep
  rw [hlay] at hstep
  exact ⟨_, hstep, ⟨F', .block hb ⟨le_refl _, hlt, rfl⟩⟩, rfl, rfl, rfl⟩

/-- Before it returns, `main` reads what it answers. -/
theorem freturn_reads (inMain : Bool) : ∀ op ∈ irs (Translate.freturn inMain),
    ∃ n r, op = .ir (.loadReg n r) := by
  intro op hop
  cases inMain with
  | false => cases hop
  | true => exact ⟨0, 10, List.mem_singleton.mp hop⟩

/-! ### System calls -/

theorem Module.exec_trace {op : Op} {s s' : Process} (h : M.exec op s = some s') :
    s.trace <:+ s'.trace := by
  cases op with
  | ir i =>
    obtain ⟨t, -, rfl⟩ := Option.map_eq_some_iff.mp h
    exact List.suffix_refl _
  | call a =>
    obtain ⟨f, -, h⟩ := Option.bind_eq_some_iff.mp h
    obtain ⟨b, -, rfl⟩ := Option.map_eq_some_iff.mp h
    exact List.suffix_refl _
  | sys dst args =>
    obtain ⟨vs, -, h⟩ := Option.bind_eq_some_iff.mp h
    have hkeeps := M.host.rv_syscall_keeps s.mem s.trace vs
    unfold Module.sys at h
    cases hr : M.host.rv_syscall s.mem s.trace vs with
    | ok p =>
      rw [hr] at h
      obtain rfl := Option.some.inj h
      exact hkeeps.ok p hr
    | error e =>
      rw [hr] at h
      cases e with
      | exited t =>
        obtain rfl := Option.some.inj h
        exact hkeeps.exited t hr
      | lost => cases h

/-- What was asked for stays so. -/
theorem Module.step_trace {s s' : Process} (h : M.step s = some s') : s.trace <:+ s'.trace := by
  unfold Module.step at h
  cases hrest : s.rest with
  | nil =>
    rw [hrest] at h
    cases h
  | cons i rest =>
    rw [hrest] at h
    dsimp only at h
    cases hk : i.kind with
    | op =>
      rw [hk] at h
      obtain ⟨op, -, h⟩ := Option.bind_eq_some_iff.mp h
      cases op with
      | none =>
        obtain rfl := Option.some.inj h
        exact List.suffix_refl _
      | some op => exact Module.exec_trace (s := {s with rest := rest}) h
    | br b =>
      rw [hk] at h
      obtain rfl := Option.some.inj h
      exact List.suffix_refl _
    | condBr cond u v =>
      rw [hk] at h
      cases cond with
      | guest a =>
        obtain ⟨b, -, rfl⟩ := Option.map_eq_some_iff.mp h
        exact List.suffix_refl _
      | helper => cases h
    | ret =>
      rw [hk] at h
      dsimp only at h
      cases hstack : s.stack with
      | nil =>
        rw [hstack] at h
        obtain rfl := Option.some.inj h
        exact List.suffix_refl _
      | cons frame stack =>
        rw [hstack] at h
        obtain rfl := Option.some.inj h
        exact List.suffix_refl _
    | indBr | unreachable =>
      rw [hk] at h
      cases h

theorem Module.steps_trace {s s' : Process} (h : steps M.step n s = some s') :
    s.trace <:+ s'.trace := by
  induction n generalizing s with
  | zero =>
    obtain rfl := Option.some.inj h
    exact List.suffix_refl _
  | succ n ih =>
    obtain ⟨u, hu, h⟩ := Option.bind_eq_some_iff.mp h
    exact (Module.step_trace hu).trans (ih h)

/-- Registers that are read for a call. -/
theorem loads_wp (rs : List Reg) {n : Nat} {s : Ir.State} :
    Emit.wp Ir.step (loads rs) n s fun vs n' t =>
    Translate.Extends n s n' t ∧
      List.Forall₂ (fun v r => Translate.Denotes v .i32 (.i32 (s.x r)) n' t) vs rs := by
  induction rs generalizing n s with
  | nil => exact Emit.wp_pure ⟨.refl n s, .nil⟩
  | cons r rs ih =>
    refine Emit.wp_bind (Translate.Builder.wp_load r fun v n₁ s₁ he hv => Emit.wp_bind ?_)
    refine Emit.wp_mono ih fun vs n₂ s₂ hvs => Emit.wp_pure ?_
    obtain ⟨he', hvs⟩ := hvs
    exact ⟨he.trans he', .cons (hv.extend he') (he.x ▸ hvs)⟩

theorem words_eq {vs : List Ir.Value} {rs : List Reg} {x : Reg → Word}
    (h : List.Forall₂ (fun v r => v.ref.eval s.ir = .i32 (x r)) vs rs) :
    s.words (vs.map Ir.Value.ref) = some (rs.map x) := by
  induction h with
  | nil => rfl
  | @cons v r vs rs hv _ ih =>
    rw [List.map_cons]
    unfold Process.words
    rw [hv]
    dsimp only
    rw [ih]
    rfl

/-- The call, and what is done with its result. -/
theorem ecall_eq : ecall = (loads argRegs).code.map .ir ++
    [.sys 7 ((loads argRegs 0).1.map Ir.Value.ref), .ir (.storeReg (.temp 7) 10)] := rfl

/-- **A system call** asks the kernel for what the guest asks it for. -/
theorem Complete.asks (hM : Complete M opts) (stands : Stands F g.hart.pc.toNat s.rest)
    (stack : Stacked M opts g.calls s.stack) (guest : s.guest = g.hart.toState)
    (trace : s.trace = g.trace) (he : M.text.emit g.hart.pc.toNat = some ⟨ecall, .next, none⟩)
    (known : (Service.ofRv (g.hart.get 17)).isSome = true) (ended : g.ended = false) :
    ∃ n s', steps M.step (n + 1) s = some s' ∧
      Matches M opts (({g with hart := g.hart.step .ecall} : Thread).ecall M.host.kernel) s' := by
  obtain ⟨-, hact⟩ := hM.covers _ _ he
  obtain ⟨t, ht, hext, hargs⟩ := loads_wp argRegs (n := 0) (s := s.ir)
  obtain ⟨n, l', hn, hafter, -, hops⟩ := stands.run hM.covers he ecall_eq ht
  have hstands := hafter.next (by rw [hact]; rfl)
  have hx : t.x = g.hart.x := hext.x.trans (congrArg (·.x) guest)
  have hmem : t.mem = g.hart.mem := hext.mem.trans (congrArg (·.mem) guest)
  let s₁ : Process := {s with
    rest := piece (F.first g.hart.pc.toNat + (loads argRegs).code.length + 1) 1 ++ l'
    env := t.env, x := t.x, mem := t.mem}
  have hwords : s₁.words ((loads argRegs 0).1.map Ir.Value.ref) = some (argRegs.map s.x) :=
    words_eq (hargs.imp fun v r h => h.eval)
  have hstep := M.step_op
    (s := {s with rest := piece _ 2 ++ l', env := t.env, x := t.x, mem := t.mem})
    rfl rfl (hops 0 _ rfl)
  change M.step _ = s₁.words _ >>= M.sys 7 s₁ at hstep
  rw [hwords] at hstep
  change M.step _ = M.sys 7 s₁ (argRegs.map s.x) at hstep
  obtain ⟨service, hservice⟩ := Option.isSome_iff_exists.mp known
  -- Both sides ask for the same.
  have hsys : M.host.rv_syscall s₁.mem s₁.trace (argRegs.map s.x) =
      M.host.kernel.ask g.hart.mem g.trace service (argRegs.tail.map g.hart.x) := by
    refine (Syscall.rv_syscall_eq M.host s₁.mem s₁.trace (s.x 17)
      (show (argRegs.tail.map s.x).length = 6 from rfl)).trans ?_
    rw [show s.x = g.hart.x from congrArg (·.x) guest, show s₁.mem = g.hart.mem from hmem,
      show s₁.trace = g.trace from trace, show Service.ofRv (g.hart.x 17) = some service
        from hservice]
    rfl
  have hecall : M.host.kernel.ecall g.hart.mem g.trace (g.hart.get 17)
    (argRegs.tail.map g.hart.get) =
      M.host.kernel.ask g.hart.mem g.trace service (argRegs.tail.map g.hart.x) := by
    unfold Syscall.Kernel.ecall
    rw [hservice]
    rfl
  have hguest : s₁.guest = g.hart.toState := congrArg₂ Isa.State.mk hx hmem
  unfold Module.sys at hstep
  rw [hsys] at hstep
  unfold Thread.ecall
  rw [show M.host.kernel.ecall (g.hart.step .ecall).mem g.trace ((g.hart.step .ecall).get 17)
    (argRegs.tail.map (g.hart.step .ecall).get) = _ from hecall]
  cases service with
  | exit => exact ⟨n, _, steps_trans hn (steps_one hstep), .ended rfl rfl hguest rfl⟩
  | write =>
    let e : Syscall.Event := ⟨.write, (argRegs.tail.map g.hart.x).take 3, g.hart.mem⟩
    let s₂ : Process := {s₁ with
      env := Function.update s₁.env 7 (.i32 (M.host.kernel g.trace e))
      trace := e :: g.trace}
    change M.step _ = some s₂ at hstep
    have hstore : M.step s₂ = some {s₂ with
        rest := l', x := Function.update s₂.x 10 (M.host.kernel g.trace e)} :=
      (M.step_op rfl rfl (hops 1 _ rfl)).trans rfl
    refine ⟨n + 1, _, steps_trans (steps_trans hn (steps_one hstep)) (steps_one hstore),
      .running F ended ?_ stack ?_ rfl⟩
    · show Stands F (g.hart.pc + 4).toNat l'
      rw [pc_next hstands.past.2.1 F.bound]
      exact hstands
    · exact congrArg₂ Isa.State.mk (congrArg (Function.update · 10 (M.host.kernel g.trace e)) hx)
        hmem

/-- **One instruction**, by the shape of its code. -/
theorem Complete.does (hM : Complete M opts) (stands : Stands F g.hart.pc.toNat s.rest)
    (stack : Stacked M opts g.calls s.stack) (guest : s.guest = g.hart.toState)
    (trace : s.trace = g.trace) (he : M.text.emit g.hart.pc.toNat = some e)
    (h : Does M.host.kernel g g' e) (ended : g.ended = false) :
    ∃ n s', steps M.step (n + 1) s = some s' ∧ Matches M opts g' s' := by
  obtain ⟨-, hact⟩ := hM.covers _ e he
  have hmod := F.aligned
  obtain ⟨hst, hlt, hal⟩ := stands.past
  have hsucc : ∀ taken {c}, (M.inst g.hart.pc.toNat).act.succ? g.hart.pc.toNat taken = some c →
      Past F.st F.e c := fun taken _ hs => by
    obtain ⟨h₁, h₂, h₃⟩ := F.next _ _ _ hst hlt (by omega) hs
    exact ⟨h₁, h₂, by omega⟩
  have hnext : Past F.st F.e (g.hart.pc.toNat + 4) → (g.hart.pc + 4).toNat = g.hart.pc.toNat + 4 :=
    fun h => pc_next h.2.1 F.bound
  cases h with
  | @next code run pc calls goes =>
    obtain ⟨t, ht, hguest, -⟩ := run.at guest
    obtain ⟨n, l', hn, hafter, hpos⟩ := stands.compute hM.covers he ht
    have hstays : (M.inst g.hart.pc.toNat).act.stays opts = true := by
      rw [hact]
      rfl
    obtain ⟨k, rfl⟩ := Nat.exists_eq_succ_of_ne_zero (Nat.ne_of_gt (hpos rfl))
    have hstands := hafter.next hstays
    refine ⟨k, _, hn, .running F (goes.ended.trans ended) ?_ (calls ▸ stack) hguest
      (trace.trans goes.trace.symm)⟩
    rw [pc, hnext hstands.past]
    exact hstands
  | @branch code target cond taken run pc calls goes =>
    obtain ⟨t, ht, hguest, hcond⟩ := run.at guest
    obtain ⟨n, l', hn, hafter, -⟩ := stands.compute hM.covers he ht
    obtain ⟨q, i, rfl, hq, hterm⟩ := hafter.term (by rw [hact]; rfl)
    obtain ⟨u, v, hk, hu, hv⟩ := term_branch hterm hact
    have hq := Skips.all hq (l := [i])
    have hstep := M.step_cond (s := {s with rest := [i], env := t.env, x := t.x, mem := t.mem})
      rfl hk
    have htest := Module.test_eq (s := {s with rest := [i], env := t.env, x := t.x, mem := t.mem})
      he rfl
      hcond
    have htaken : decide (BitVec.ofBool taken = 1) = taken := by cases taken <;> rfl
    rw [htest, htaken] at hstep
    refine ⟨_, _, steps_trans (steps_trans hn (hq _ rfl)) (steps_one hstep),
      .running F (goes.ended.trans ended) ?_ (calls ▸ stack) hguest (trace.trans goes.trace.symm)⟩
    cases taken with
    | true =>
      have hpast : Past F.st F.e target := hsucc true (by rw [hact]; rfl)
      rw [show g'.hart.pc.toNat = target from pc]
      exact .block hu hpast
    | false =>
      have hpast : Past F.st F.e (g.hart.pc.toNat + 4) := hsucc false (by rw [hact]; rfl)
      rw [show g'.hart.pc = g.hart.pc + 4 from pc, hnext hpast]
      exact .block hv hpast
  | @jump code target run pc calls goes =>
    obtain ⟨t, ht, hguest, -⟩ := run.at guest
    obtain ⟨n, l', hn, hafter, -⟩ := stands.compute hM.covers he ht
    obtain ⟨q, i, rfl, hq, hterm⟩ := hafter.term (by rw [hact]; rfl)
    obtain ⟨u, hk, hu⟩ := term_jump hterm hact
    have hq := Skips.all hq (l := [i])
    have hpast : Past F.st F.e target := hsucc false (by rw [hact]; rfl)
    refine ⟨_, _, steps_trans (steps_trans hn (hq _ rfl)) (steps_one (M.step_br rfl hk)),
      .running F (goes.ended.trans ended) ?_ (calls ▸ stack) hguest (trace.trans goes.trace.symm)⟩
    rw [pc]
    exact .block hu hpast
  | @ret code run pc calls ended' trace' =>
    obtain ⟨t, ht, hguest, -⟩ := run.at guest
    obtain ⟨n, l', hn, hafter, -⟩ := stands.compute hM.covers he ht
    obtain ⟨q, i, rfl, hq, hterm⟩ := hafter.term (by rw [hact]; rfl)
    obtain ⟨k, s', hk, hguest', htrace, hend⟩ := stack.unwind
      (s := {s with rest := q ++ [i], env := t.env, x := t.x, mem := t.mem})
      ⟨q, i, rfl, term_ret hterm (.inl hact), fun j hj => ⟨(hq j hj).1, .inl (hq j hj).2⟩⟩ rfl
    refine ⟨n + k, s', by rw [Nat.add_assoc]; exact steps_trans hn hk, ?_⟩
    rcases hend with ⟨hnil, hrest⟩ | ⟨r, rs, hcons, ⟨F', hF'⟩, hstack⟩
    · exact .ended (by rw [ended', hnil]; rfl) hrest (hguest'.trans hguest)
        ((htrace.trans trace).trans trace'.symm)
    · rw [hcons] at ended' calls
      refine .running F' (ended'.trans rfl) ?_ (calls ▸ hstack) (hguest'.trans hguest)
        ((htrace.trans trace).trans trace'.symm)
      rw [pc r (by rw [hcons]; rfl)]
      exact hF'
  | @call code target run pc calls goes =>
    obtain ⟨t, ht, hguest, -⟩ := run.at guest
    obtain ⟨n, l', hn, hafter, -, hops⟩ := stands.run hM.covers he rfl ht
    have hstands := hafter.next (by rw [hact]; rfl)
    obtain ⟨s', hs', ⟨F', hF'⟩, hstack, hguest', htrace⟩ := hM.enter stands.past (by rw [hact]; rfl)
      (s := {s with rest := piece _ 1 ++ l', env := t.env, x := t.x, mem := t.mem}) rfl rfl
        (hops 0 _ rfl)
    refine ⟨n, s', steps_trans hn (steps_one hs'), .running F' (goes.ended.trans ended) ?_ ?_
      (hguest'.trans hguest) ((htrace.trans trace).trans goes.trace.symm)⟩
    · rw [pc]
      exact hF'
    · rw [hstack, calls]
      refine .call F ?_ stack
      rw [hnext hstands.past]
      exact hstands
  | @tail code target inMain run pc calls goes =>
    obtain ⟨t, ht, hguest, -⟩ := run.at guest
    obtain ⟨n, l', hn, hafter, -, hops⟩ := stands.run hM.covers he (List.append_assoc _ _ _) ht
    obtain ⟨q, i, rfl, hq, hterm⟩ := hafter.term (by rw [hact]; rfl)
    obtain ⟨s', hs', ⟨F', hF'⟩, hstack, hguest', htrace⟩ := hM.enter stands.past (by rw [hact]; rfl)
      (s := {s with
        rest := piece _ ((irs (Translate.freturn inMain)).length + 1) ++ (q ++ [i])
        env := t.env, x := t.x, mem := t.mem}) rfl rfl (hops 0 _ rfl)
    refine ⟨n, s', steps_trans hn (steps_one hs'), .running F' (goes.ended.trans ended) ?_ ?_
      (hguest'.trans hguest) ((htrace.trans trace).trans goes.trace.symm)⟩
    · rw [pc]
      exact hF'
    · rw [hstack, calls]
      -- Behind the call there is only the return of this function.
      refine .tail ⟨piece _ _ ++ q, i, (List.append_assoc _ _ _).symm,
        term_ret hterm (.inr ⟨_, hact⟩),
        fun j hj => ?_⟩ stack
      rcases List.mem_append.mp hj with hj | hj
      · obtain ⟨hk, h₁, h₂⟩ := Block.mem_piece.mp hj
        obtain ⟨m, hm⟩ := Nat.exists_eq_add_of_le h₁
        have hlt : m < (irs (Translate.freturn inMain)).length := by omega
        obtain ⟨n, r, hload⟩ := freturn_reads inMain _ (List.getElem_mem hlt)
        refine ⟨hk, .inr ⟨n, r, ?_⟩⟩
        rw [hm, Nat.add_assoc, Nat.add_comm 1, ← hload]
        exact hops (m + 1) _ (List.getElem?_eq_getElem hlt)
      · exact ⟨(hq j hj).1, .inl (hq j hj).2⟩
  | sys known asks =>
    subst asks
    exact hM.asks stands stack guest trace he known ended

/-- **The module simulates the guest.** -/
theorem Complete.simulates (hM : Complete M opts) :
    Simulates (Thread.step M.host.kernel M.text) M.step (Thread.Fine M.text) (Matches M opts) := by
  refine ⟨fun g g' s h hfine hg => ?_, fun g s h hfine hg => ?_⟩
  · cases h with
    | ended ended =>
      unfold Thread.step at hg
      rw [if_pos ended] at hg
      cases hg
    | running F ended stands stack guest trace =>
      obtain ⟨i, hi, hrelies⟩ := hfine ended
      unfold Thread.step at hg
      rw [if_neg (by rw [ended]; exact nofun), hi] at hg
      obtain rfl := Option.some.inj hg
      obtain ⟨e, he, hdoes⟩ := emit_does hi hrelies
      exact hM.does stands stack guest trace he hdoes ended
  · cases h with
    | ended _ rest =>
      unfold Module.step
      rw [rest]
    | running F ended =>
      obtain ⟨i, hi, -⟩ := hfine ended
      unfold Thread.step at hg
      rw [if_neg (by rw [ended]; exact nofun), hi] at hg
      cases hg

end RiscvSbt.Whole
