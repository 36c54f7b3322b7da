import RiscvSbt.Block.Labels
import RiscvSbt.Block.Links
import RiscvSbt.Context.Finish

/-! Runs in which every function starts afresh.

As long as no function that is cut hands blocks over (`Clean`), the blocks of a function are
what `Block.Reach` builds from an entry block of its own. `Step` is a step of such a run as
the blocks see it, and `Fresh` is what the run keeps for the next one. -/
namespace RiscvSbt.Context
open Library Block State

/-- The code of a section; where there is none, nothing is translated. -/
def Program.body (p : Program) (x : Nat) : Nat → Inst := fun a =>
  match p.sections[x]? with
  | some sec => sec.inst a
  | none => .straight 0

/-- Functions start where instructions do. -/
def Program.Aligned (p : Program) : Prop :=
  ∀ sec ∈ p.sections, ∀ sym ∈ sec.symbols, sym.isValid → sym.addr % 4 = 0

/-- The next step ends the function, because another one starts here. -/
def Cuts (s : State) (l : Loop) : Prop :=
  l.addr < l.stop ∧ l.addr ≠ l.st ∧ ∃ obj, s.objs s.cur = some obj ∧ l.addr = s.nextFuncAddr obj.sec

/-- A function that is cut has no block at its end or behind. -/
def Clean (c : Config) : Prop :=
  ∀ l, c.loop = some l → Cuts c.s l → ∀ k b, c.s.blk.findBB k = some b → k < l.addr

/-- The LLVM function that a function of a name is translated into. -/
def State.fnOf (s : State) (name : String) : FnId :=
  if name = "main" then s.nextFn else (s.create name).1

/-- How many instructions a function of a name starts with. -/
def Program.prologueOf (p : Program) (name : String) : Nat :=
  if name = "main" then p.mainPrologue else p.prologue

/-- In the loop of a function that was started after `s₀`. -/
structure Running (p : Program) (s : State) (l : Loop) (body : Nat → Inst) (s₀ : Block.State)
    (f : FnId) (pr : Nat) : Prop where
  reach : Block.Reach p.opts body l.st ((s₀.newFunction f).start l.st pr) l.addr s.blk
  laid : ∀ g, ∀ b ∈ s₀.layout g, b < s₀.nextBlock
  aligned : l.st % 4 = 0
  fn : f < s.nextFn
  cur : s.cur < s.nextObj
  obj : ∀ obj, s.objs s.cur = some obj →
    body = p.body obj.sec ∧ obj.addr = l.st ∧ pr = p.prologueOf obj.name ∧
      s.inMain = decide (obj.name = "main")

structure Fresh (p : Program) (c : Config) : Prop where
  maps : Maps c.s
  objs : ∀ o obj, c.s.objs o = some obj → c.loop = none ∨ o ≠ c.s.cur →
    obj.blocks = {f := 0} ∨ obj.blocks.bbMap.data ≠ []
  todo : ∀ F ∈ c.todo, F.start % 4 = 0
  laid : ∀ g, ∀ b ∈ c.s.blk.layout g, b < c.s.blk.nextBlock
  unborn : ∀ g, c.s.nextFn ≤ g → c.s.blk.layout g = []
  idle : c.loop = none → c.s.blk.bld.updateFirst = true ∧ c.s.inMain = false
  run : ∀ l, c.loop = some l → ∃ body s₀ f pr, Running p c.s l body s₀ f pr

variable {p : Program} {s t : State} {obj : Obj} {o : Nat} {l l' : Loop} {c c' : Config}

/-! ### Starting a function -/

theorem create_spec (s : State) (name : String) :
    ∃ m n, s.create name = ((s.create name).1, {s with module := m, nextFn := n}) ∧
      s.nextFn ≤ n ∧ (s.module.get? name = some (s.create name).1 ∧ n = s.nextFn ∨
        ((s.create name).1 = s.nextFn ∧ n = s.nextFn + 1)) := by
  unfold State.create
  cases hget : s.module.get? name with
  | some f => exact ⟨s.module, s.nextFn, rfl, le_refl _, .inl ⟨rfl, rfl⟩⟩
  | none => exact ⟨_, _, rfl, Nat.le_succ _, .inr ⟨rfl, rfl⟩⟩

/-- A new function starts from nothing. -/
theorem start_blk (hb : ∃ g, obj.blocks = {f := g}) (hu : s.blk.bld.updateFirst = true) :
    (s.start p o obj).blk =
      (s.blk.newFunction (s.fnOf obj.name)).start obj.addr (p.prologueOf obj.name) := by
  obtain ⟨g, hb⟩ := hb
  have hblk : ∀ f, {s.blk with func := {obj.blocks with f := f}} = s.blk.newFunction f := by
    intro f
    rw [hb]
    show _ = {s.blk with func := {f := f}, bld := {s.blk.bld with updateFirst := true}}
    rw [← hu]
  unfold State.start State.fnOf Program.prologueOf
  split
  · exact congrArg (fun blk : Block.State =>
      ((blk.newBB obj.addr none).2.setInsertBlock (blk.newBB obj.addr none).1).ops p.mainPrologue)
      (hblk s.nextFn)
  · have hcb : (s.create obj.name).2.blk = s.blk := by
      obtain ⟨m, n, hc, -⟩ := create_spec s obj.name
      rw [hc]
    show Block.State.start obj.addr p.prologue {(s.create obj.name).2.blk with
      func := {obj.blocks with f := (s.create obj.name).1}} = _
    rw [hcb]
    exact congrArg (Block.State.start obj.addr p.prologue) (hblk _)

/-- What the blocks before a function keep when it starts, and what is in its entry. -/
theorem start_kept (s : Block.State) (f : FnId) (st prologue : Nat) :
    let t := (s.newFunction f).start st prologue
    (∀ b, b ≠ s.nextBlock → t.bbs b = s.bbs b) ∧ s.nextInstr ≤ t.nextInstr ∧
      (∀ i, i < s.nextInstr → t.marks i = s.marks i) ∧ t.pending = s.pending ∧
      t.sections = s.sections ∧
      (t.bbs s.nextBlock).insts.map Block.Instr.kind = List.replicate prologue .op := by
  let u := ((s.newFunction f).newBB st none).2.setInsertBlock s.nextBlock
  obtain ⟨m, hm, hk⟩ := (Appends.refl u).ops prologue
  have hnew : u.bbs s.nextBlock = {f := f, addr := some st} :=
    newBB_bbs_self (s.newFunction f) st none
  refine ⟨fun b hb => ?_, hm.nextInstr, hm.marks, hm.pending, hm.sections, ?_⟩
  · exact (hm.other b hb).trans (@newBB_bbs_of_ne (s.newFunction f) st none b hb)
  · show ((u.ops prologue).bbs u.bld.insertBlock).insts.map Block.Instr.kind = _
    rw [hm.self]
    show ((u.bbs s.nextBlock).insts ++ ([] ++ m)).map Block.Instr.kind = _
    rw [hnew]
    exact hk

/-- What else starting a function does. -/
theorem start_rest (p : Program) (s : State) (o : Nat) (obj : Obj) :
    let t := s.start p o obj
    t.cur = s.cur ∧ t.nextObj = s.nextObj ∧ t.dests = s.dests ∧ t.words = s.words ∧
      t.objs = Function.update s.objs o (some {obj with f := some (s.fnOf obj.name)}) ∧
      s.nextFn ≤ t.nextFn ∧ t.inMain = (decide (obj.name = "main") || s.inMain) ∧
      ((s.fnOf obj.name = s.nextFn ∧ t.nextFn = s.nextFn + 1) ∨
        (s.module.get? obj.name = some (s.fnOf obj.name) ∧ t.nextFn = s.nextFn)) := by
  unfold State.start State.fnOf
  split
  next hmain =>
    rw [decide_eq_true hmain]
    exact ⟨rfl, rfl, rfl, rfl, rfl, Nat.le_succ _, rfl, .inl ⟨rfl, rfl⟩⟩
  next hmain =>
    rw [decide_eq_false hmain, Bool.false_or]
    obtain ⟨m, n, hc, hle, hor⟩ := create_spec s obj.name
    generalize (s.create obj.name).1 = f at *
    rw [hc]
    refine ⟨rfl, rfl, rfl, rfl, rfl, hle, rfl, ?_⟩
    rcases hor with ⟨hget, hn⟩ | ⟨hf, hn⟩
    · exact .inr ⟨hget, hn⟩
    · exact .inl ⟨hf, hn⟩

theorem fnOf_congr {name : String} (hm : t.module = s.module) (hn : t.nextFn = s.nextFn) :
    t.fnOf name = s.fnOf name := by
  unfold State.fnOf State.create
  rw [hm, hn]
  cases s.module.get? name with
  | some f => rfl
  | none => rfl

/-- What a step between functions leaves alone. -/
structure Aside (s t : State) : Prop where
  blk : t.blk = s.blk
  dests : t.dests = s.dests
  words : t.words = s.words
  inMain : t.inMain = s.inMain
  cur : t.cur = s.cur
  nextFn : s.nextFn ≤ t.nextFn
  nextObj : s.nextObj ≤ t.nextObj
  objs : ∀ o obj, t.objs o = some obj →
    s.objs o = some obj ∨ (o = s.nextObj ∧ obj.blocks = {f := 0})

theorem getByAddr_aside {sec : Section} {a : Nat} (h : s.getByAddr sec a = .ok (o, t)) :
    Aside s t := by
  cases hget : s.funcByAddr.get? a with
  | some o' =>
    obtain ⟨-, rfl⟩ := getByAddr_known h hget
    exact ⟨rfl, rfl, rfl, rfl, rfl, le_refl _, le_refl _, fun _ _ h => .inl h⟩
  | none =>
    obtain ⟨-, N, rfl⟩ := getByAddr_add h hget
    obtain ⟨m, n, hc, hle, -⟩ := create_spec s (nameAt sec a)
    unfold State.added
    rw [hc]
    refine ⟨rfl, rfl, rfl, rfl, rfl, hle, Nat.le_succ _, fun o obj ho => ?_⟩
    let v : State := {s with module := m, nextFn := n}
    have ho : ((v.newFunction (s.madeUp sec a)).addFunc v.nextObj (s.madeUp sec a)).objs o =
      some obj := ho
    rcases addFunc_objs ho with ⟨heq, rfl⟩ | ⟨-, hold⟩
    · exact .inr ⟨heq, rfl⟩
    · exact .inl hold

/-- The first state of a function that is entered. -/
structure Entered (p : Program) (s : State) (o : Nat) (obj : Obj) (t : State) (l : Loop) :
    Prop where
  blk : t.blk = (s.blk.newFunction (s.fnOf obj.name)).start l.st (p.prologueOf obj.name)
  st : l.st = obj.addr
  addr : l.addr = obj.addr
  stop : obj.stop = some l.stop
  cur : t.cur = o
  dests : t.dests = s.dests
  words : t.words = s.words
  nextObj : t.nextObj = s.nextObj
  nextFn : s.nextFn ≤ t.nextFn
  objs : ∀ o' obj', t.objs o' = some obj' → o' ≠ o → s.objs o' = some obj'
  kept : ∀ o' obj', s.objs o' = some obj' → o' ≠ o → t.objs o' = some obj'
  fn : ∃ obj', t.objs o = some obj' ∧ obj'.f = some (s.fnOf obj.name)
  running : Running p t l (p.body obj.sec) s.blk (s.fnOf obj.name) (p.prologueOf obj.name)

theorem translate_fresh {x : Nat} (hm : Maps s) (hobj : s.objs o = some obj)
    (hb : ∃ g, obj.blocks = {f := g}) (hu : s.blk.bld.updateFirst = true)
    (hlaid : ∀ g, ∀ b ∈ s.blk.layout g, b < s.blk.nextBlock) (ha : obj.addr % 4 = 0)
    (hmain : s.inMain = false) (ht : s.translate p x o = .ok (t, l)) : Entered p s o obj t l := by
  obtain ⟨obj', v, hobj', hv, hstop, hst, haddr, rfl⟩ := translate_cases ht
  obtain rfl : obj' = obj := Option.some.inj (hobj'.symm.trans hobj)
  obtain ⟨N, rfl⟩ := updateNextFuncAddr_eq hv
  obtain ⟨st, stop, addr⟩ := l
  obtain rfl : obj'.addr = st := hst.symm
  let v : State := {s with cur := o, nextFuncAddr := N}
  have hfn : v.fnOf obj'.name = s.fnOf obj'.name := fnOf_congr rfl rfl
  have hblk : (v.start p o obj').blk =
      (s.blk.newFunction (s.fnOf obj'.name)).start obj'.addr (p.prologueOf obj'.name) := by
    rw [← hfn]
    exact start_blk hb hu
  obtain ⟨hcur, hnext, hdests, hwords, hobjs, hle, hin, hor⟩ := start_rest p v o obj'
  rw [hfn] at hor
  refine ⟨hblk, rfl, haddr, hstop, hcur, hdests, hwords, hnext, hle, fun o' obj'' ho' hne => ?_,
    fun o' obj'' ho' hne => ?_, ?_, ⟨?_, hlaid, ha, ?_, ?_, fun obj'' ho' => ?_⟩⟩
  · have ho'' : Function.update s.objs o _ o' = some obj'' := (congrFun hobjs o').symm.trans ho'
    rwa [Function.update_of_ne hne] at ho''
  · refine (congrFun hobjs o').trans ?_
    rw [Function.update_of_ne hne]
    exact ho'
  · refine ⟨_, (congrFun hobjs o).trans (Function.update_self ..), ?_⟩
    rw [hfn]
  · show Block.Reach _ _ _ _ _ (v.start p o obj').blk
    obtain rfl : obj'.addr = addr := haddr.symm
    rw [hblk]
    exact .start
  · rcases hor with ⟨hf, hn⟩ | ⟨hget, hn⟩
    · rw [hf, hn]
      exact Nat.lt_succ_self _
    · rw [hn]
      exact hm.fn _ _ hget
  · rw [hcur, hnext]
    exact hm.ids _ o (hm.name o obj' hobj)
  · rw [hcur, hobjs, Function.update_self] at ho'
    rw [← Option.some.inj ho']
    refine ⟨rfl, rfl, rfl, ?_⟩
    rw [hin, show v.inMain = false from hmain, Bool.or_false]

/-! ### Steps -/

/-- A step as the blocks see it. -/
inductive Step (p : Program) (c c' : Config) : Prop where
  | turn {l : Loop} (loop : c.loop = some l) (lt : l.addr < l.stop) (stays : ¬ Cuts c.s l)
      (next : c'.loop = some {l with addr := l.addr + 4})
      (keeps : ∀ body s₀ f pr, Running p c.s l body s₀ f pr →
        c.s.blk.translateInstr p.opts l.addr (body l.addr) = .ok c'.s.blk ∧
          Running p c'.s {l with addr := l.addr + 4} body s₀ f pr)
      (dests : c'.s.dests = c.s.dests)
      (words : ∃ w : Word, w.addr = l.addr ∧ c'.s.words = c.s.words ++ [w])
  | leave {l : Loop} (loop : c.loop = some l) (le : l.stop ≤ l.addr) (next : c'.loop = none)
      (blk : c'.s.blk = (c.s.finish p).blk) (dests : c'.s.dests = (c.s.finish p).dests)
      (words : c'.s.words = c.s.words)
  | cut {l l' : Loop} {o : Nat} {obj : Obj} {s : State} (loop : c.loop = some l)
      (cuts : Cuts c.s l) (registered : c.s.funcByAddr.get? l.addr = some o)
      (known : ∃ next, c.s.objs o = some next ∧ next.name = obj.name)
      (blk : s.blk = (c.s.finish p).blk) (dests : s.dests = (c.s.finish p).dests)
      (fnOf : ∀ name, s.fnOf name = c.s.fnOf name)
      (next : c'.loop = some l') (st : l'.st = l.addr) (entered : Entered p s o obj c'.s l')
      (left : ∃ obj', c'.s.objs c.s.cur = some obj' ∧
        obj'.blocks.bbMap = c.s.blk.func.bbMap.erase l.addr)
      (words : c'.s.words = c.s.words)
  | enter {l' : Loop} {o : Nat} {obj : Obj} {s : State} (loop : c.loop = none)
      (named : ∃ F todo, c.todo = F :: todo ∧ obj.name = F.name)
      (fnOf : ∀ name, s.fnOf name = c.s.fnOf name) (blk : s.blk = c.s.blk)
        (dests : s.dests = c.s.dests) (next : c'.loop = some l')
      (entered : Entered p s o obj c'.s l') (words : c'.s.words = c.s.words)
  | idle (loop : c.loop = none) (next : c'.loop = none)
      (blk : c'.s.blk = c.s.blk ∨ c'.s.blk = {c.s.blk with bld := {}})
      (dests : c'.s.dests = c.s.dests) (words : c'.s.words = c.s.words)

namespace Running
variable {body : Nat → Inst} {s₀ : Block.State} {f : FnId} {pr : Nat}

theorem own (h : Running p s l body s₀ f pr) :
    Own s₀.nextBlock l.st (s₀.layout f) ((s₀.newFunction f).start l.st pr) s.blk s.blk :=
  h.reach.own (start_base h.laid pr)

theorem inv (h : Running p s l body s₀ f pr) : ∃ main k,
    Block.Inv p.opts body s₀.nextBlock l.st (Open p.opts body l.st s₀.pending) s.blk l.addr main k ∧
      Block.Ahead p.opts body l.st s₀.pending l.addr s.blk :=
  h.reach.inv h.aligned

theorem labelled (h : Running p s l body s₀ f pr) : Labelled s₀.nextBlock l.st
    ((s₀.newFunction f).start l.st pr) l.addr s.blk :=
  h.reach.labelled (start_base h.laid pr)

theorem le (h : Running p s l body s₀ f pr) : l.st ≤ l.addr := h.reach.le

/-- Blocks that were there before are as they were. -/
theorem bbs (h : Running p s l body s₀ f pr) {b : Nat} (hb : b < s₀.nextBlock) :
    s.blk.bbs b = s₀.bbs b :=
  (h.own.bbs b hb).trans ((start_kept s₀ f l.st pr).1 b (Nat.ne_of_lt hb))

theorem nextInstr (h : Running p s l body s₀ f pr) : s₀.nextInstr ≤ s.blk.nextInstr :=
  le_trans (start_kept s₀ f l.st pr).2.1 h.own.nextInstr

/-- The function of the blocks. -/
theorem func_f (h : Running p s l body s₀ f pr) : s.blk.func.f = f := by
  rw [h.own.fn, start_func]

/-- The layouts of other functions are as they were. -/
theorem layout (h : Running p s l body s₀ f pr) {g : FnId} (hg : g ≠ f) :
    s.blk.layout g = s₀.layout g := by
  rw [h.own.layout g (by rw [start_func]; exact hg), start_layout, if_neg hg]

/-- What a clean cut hands over: nothing. -/
theorem moved (h : Running p s l body s₀ f pr)
    (hclean : ∀ k b, s.blk.findBB k = some b → k < l.addr) :
    s.blk.func.bbMap.suffix l.addr = Map.empty ∧ s.blk.func.ubbMap.suffix l.addr = Map.empty := by
  have hnil : ∀ {V : Type} (m : Map Nat V), (∀ k v, m.get? k = some v → k < l.addr) →
      m.suffix l.addr = Map.empty := by
    intro V m hm
    refine Map.eq_empty fun k v hk => ?_
    rw [Map.get?_suffix] at hk
    split at hk
    next hle => exact absurd (hm k v hk) (Nat.not_lt.mpr hle)
    next => cases hk
  obtain ⟨main, k, hinv, -⟩ := h.inv
  refine ⟨hnil _ hclean, hnil _ fun a v hv => ?_⟩
  cases v with
  | nil => exact absurd hv (h.own.filled a)
  | cons b rest =>
    have hb : b ∈ s.blk.ubbs a := by
      unfold State.ubbs
      rw [hv]
      exact List.mem_cons_self
    exact (hinv.helpers a b hb).2.1

/-- What stays behind at a cut has the entry block. -/
theorem stays (h : Running p s l body s₀ f pr) (hne : l.addr ≠ l.st) :
    (s.blk.func.bbMap.erase l.addr).data ≠ [] := by
  obtain ⟨main, k, hinv, -⟩ := h.inv
  obtain ⟨b, hb⟩ := hinv.entry
  have hlt : l.st < l.addr := lt_of_le_of_ne h.le hne.symm
  have hget : (s.blk.func.bbMap.erase l.addr).get? l.st = some b := by
    rw [Map.get?_erase, if_pos hlt]
    exact hb
  exact List.ne_nil_of_mem (Map.get?_eq_some.mp hget)

end Running

/-! ### The end of a function -/

theorem finish_func (p : Program) (s : State) : (s.finish p).blk.func = s.blk.func := by
  obtain ⟨l, h, -⟩ := returned_appends p s
  rw [finish_blk]
  exact h.func

theorem finish_updateFirst (p : Program) (s : State) :
    (s.finish p).blk.bld.updateFirst = s.blk.bld.updateFirst := by
  obtain ⟨l, h, -⟩ := returned_appends p s
  rw [finish_blk]
  exact h.updateFirst

theorem finish_nextBlock (p : Program) (s : State) :
    (s.finish p).blk.nextBlock = s.blk.nextBlock := by
  obtain ⟨l, h, -⟩ := returned_appends p s
  rw [finish_blk]
  exact h.nextBlock

theorem finish_layout (p : Program) (s : State) (g : FnId) :
    (s.finish p).blk.layout g = (s.blk.layout g).filter fun b => s.erased p ≠ some b := by
  obtain ⟨l, h, -⟩ := returned_appends p s
  rw [finish_blk]
  show ((s.returned p).layout g).filter _ = _
  rw [h.layout]

theorem finish_laid (p : Program) (h : ∀ g, ∀ b ∈ s.blk.layout g, b < s.blk.nextBlock) :
    ∀ g, ∀ b ∈ (s.finish p).blk.layout g, b < (s.finish p).blk.nextBlock := by
  intro g b hb
  rw [finish_layout] at hb
  rw [finish_nextBlock]
  exact h g b (List.mem_filter.mp hb).1

/-! ### Keeping runs fresh -/

/-- Objects that are not being translated have no blocks yet, or are done. -/
def Settled (s : State) (free : Nat → Prop) : Prop :=
  ∀ o obj, s.objs o = some obj → free o → obj.blocks = {f := 0} ∨ obj.blocks.bbMap.data ≠ []

/-- A call that is looked up, then the code. -/
theorem Running.turn {body : Nat → Inst} {s₀ : Block.State} {f : FnId} {pr : Nat} {sec : Section}
    (h : Running p s l body s₀ f pr) (hcur : s.objs s.cur = some obj)
    (hsec : p.sections[obj.sec]? = some sec) (hset : Settled s (· ≠ s.cur))
    (ht : s.translateInstr p obj sec l.addr = .ok t) :
    s.blk.translateInstr p.opts l.addr (body l.addr) = .ok t.blk ∧
      Running p t {l with addr := l.addr + 4} body s₀ f pr ∧ t.dests = s.dests ∧
      Settled t (· ≠ t.cur) ∧ s.nextFn ≤ t.nextFn ∧
      ∃ w : Word, w.addr = l.addr ∧ t.words = s.words ++ [w] := by
  obtain ⟨u, blk, rfl, hblk, hor⟩ := translateInstr_ok ht
  have hbody : body l.addr = sec.inst l.addr := by
    rw [(h.obj obj hcur).1]
    unfold Program.body
    rw [hsec]
  have hu : Aside s u := by
    rcases hor with ⟨-, rfl⟩ | ⟨target, cur, -, -, hc⟩
    · exact ⟨rfl, rfl, rfl, rfl, rfl, le_refl _, le_refl _, fun _ _ h => .inl h⟩
    · obtain ⟨o, v, g, hv, -, rfl⟩ := handleCall_ok hc
      have ha := getByAddr_aside hv
      exact ⟨ha.blk, ha.dests, ha.words, ha.inMain, ha.cur, ha.nextFn, ha.nextObj, ha.objs⟩
  rw [hu.blk, ← hbody] at hblk
  refine ⟨hblk, ⟨.turn h.reach hblk, h.laid, h.aligned, lt_of_lt_of_le h.fn hu.nextFn, ?_,
    fun obj' ho => ?_⟩, hu.dests, fun o obj' ho hne => ?_, hu.nextFn, _, rfl,
    congrArg (· ++ _) hu.words⟩
  · show u.cur < u.nextObj
    rw [hu.cur]
    exact lt_of_lt_of_le h.cur hu.nextObj
  · have ho : u.objs u.cur = some obj' := ho
    rcases hu.objs _ _ ho with ho | ⟨heq, -⟩
    · rw [hu.cur] at ho
      obtain ⟨h₁, h₂, h₃, h₄⟩ := h.obj obj' ho
      exact ⟨h₁, h₂, h₃, hu.inMain.trans h₄⟩
    · have := h.cur
      rw [hu.cur] at heq
      omega
  · rcases hu.objs o obj' ho with ho | ⟨-, hb⟩
    · exact hset o obj' ho fun heq => hne (heq.trans hu.cur.symm)
    · exact .inl hb

/-- What the blocks of a clean cut become: the next function starts without any. -/
theorem Running.transferBBs {body : Nat → Inst} {s₀ : Block.State} {f : FnId} {pr : Nat}
    (h : Running p s l body s₀ f pr) (hclean : ∀ k b, s.blk.findBB k = some b → k < l.addr)
    {old blocks moved : Block.Function} (hold : old = {f := 0} ∨ old.bbMap.data ≠ [])
    (hmv : transferBBs (s.finish p).blk.func l.addr old = .ok (blocks, moved)) :
    blocks.bbMap = s.blk.func.bbMap.erase l.addr ∧ moved = {f := 0} := by
  rw [finish_func] at hmv
  obtain ⟨hbb, hub⟩ := h.moved hclean
  unfold State.transferBBs at hmv
  split at hmv
  · cases hmv
  next hbbs =>
    split at hmv
    · cases hmv
    next =>
      obtain ⟨rfl, rfl⟩ := Prod.mk.inj (Except.ok.inj hmv)
      obtain rfl := hold.resolve_right fun hd => hbbs hd
      refine ⟨rfl, ?_⟩
      rw [hbb, hub]
      rfl

/-- **A clean cut.** -/
theorem Running.switch {body : Nat → Inst} {s₀ : Block.State} {f : FnId} {pr : Nat} (hm : Maps s)
    (h : Running p s l body s₀ f pr) (hcur : s.objs s.cur = some obj) (hne : l.addr ≠ l.st)
    (hset : Settled s (· ≠ s.cur)) (hlaid : ∀ g, ∀ b ∈ s.blk.layout g, b < s.blk.nextBlock)
    (hclean : ∀ k b, s.blk.findBB k = some b → k < l.addr) (hsw : s.switch p obj l = .ok (t, l')) :
    ∃ o next u, s.funcByAddr.get? l.addr = some o ∧
      (∃ next', s.objs o = some next' ∧ next'.name = next.name) ∧ u.blk = (s.finish p).blk ∧
      u.dests = (s.finish p).dests ∧ u.words = s.words ∧ (∀ name, u.fnOf name = s.fnOf name) ∧
      l'.st = l.addr ∧
      Entered p u o next t l' ∧
      (∃ obj', t.objs s.cur = some obj' ∧ obj'.blocks.bbMap = s.blk.func.bbMap.erase l.addr) ∧
      Settled t (· ≠ t.cur) ∧ s.nextFn ≤ t.nextFn := by
  obtain ⟨o, next, blocks, moved, hget, hnext, hmv, hsw⟩ := switch_cases hsw
  -- The next function is another one.
  have ho : o ≠ s.cur := by
    rintro rfl
    have haddr := hm.addr l.addr s.cur obj hget hcur
    exact hne (haddr.symm.trans (h.obj obj hcur).2.1)
  have hold : s.objs o = some next := (Function.update_of_ne ho ..).symm.trans hnext
  have haddr : next.addr = l.addr := hm.addr _ _ _ hget hold
  obtain ⟨hblocks, rfl⟩ := h.transferBBs hclean (hset o next hold ho) hmv
  let u := s.handOver p obj l o next blocks {f := 0}
  have hmu : Maps u := hm.of_eq rfl rfl rfl rfl rfl fun o obj' ho => by
    obtain ⟨old, hold, hname, haddr, -⟩ := handOver_old hcur hnext ho
    exact ⟨old, hold, hname, haddr⟩
  obtain ⟨main, k, hinv, -⟩ := h.inv
  have hmod : next.addr % 4 = 0 := haddr ▸ hinv.aligned
  have hent := translate_fresh (s := u) hmu handOver_next ⟨0, rfl⟩
    ((finish_updateFirst p s).trans hinv.heap.updateFirst) (finish_laid p hlaid) hmod rfl hsw
  refine ⟨o, {next with stop := some l.stop, blocks := {f := 0}}, u, hget, ⟨next, hold, rfl⟩, rfl,
    rfl, rfl, fun name => fnOf_congr rfl rfl, hent.st.trans haddr, hent,
    ⟨_, hent.kept s.cur _ (handOver_cur ho) ho.symm, hblocks⟩,
    fun o' obj' ho' hne' => ?_, hent.nextFn⟩
  rw [hent.cur] at hne'
  have hu := hent.objs o' obj' ho' hne'
  by_cases hc : o' = s.cur
  · subst hc
    obtain rfl := Option.some.inj ((handOver_cur ho).symm.trans hu)
    refine .inr ?_
    show blocks.bbMap.data ≠ []
    rw [hblocks]
    exact h.stays hne
  · exact hset o' obj' ((handOver_other hne' hc).symm.trans hu) hc

namespace Fresh

theorem turn (h : Fresh p c) (hl : c.loop = some l) (hlt : l.addr < l.stop) (hgood : Clean c)
    (hs : c.s.turn p l = .ok (t, l')) :
    Step p c ⟨t, c.next, c.todo, some l'⟩ ∧ Fresh p ⟨t, c.next, c.todo, some l'⟩ := by
  obtain ⟨body, s₀, f, pr, hr⟩ := h.run l hl
  have hm : Maps t := h.maps.turn hs
  have hset : Settled c.s (· ≠ c.s.cur) := fun o obj ho hne => h.objs o obj ho (.inr hne)
  let s₁ : State := {c.s with addr := l.addr}
  have hr₁ : Running p s₁ l body s₀ f pr := ⟨hr.reach, hr.laid, hr.aligned, hr.fn, hr.cur, hr.obj⟩
  have hm₁ : Maps s₁ :=
    ⟨h.maps.fresh, h.maps.ids, h.maps.addr, h.maps.name, h.maps.fn, h.maps.inj⟩
  obtain ⟨obj, hobj, ⟨hne, hat, hsw⟩ | ⟨hno, rfl, sec, hsec, hi⟩⟩ := turn_ok hs
  · have hcuts : Cuts c.s l := ⟨hlt, hne, obj, hobj, hat⟩
    obtain ⟨o, next, u, hreg, hknown, hblk, hdests, hwords, hname, hst, hent, hleft, hset', hfn⟩ :=
      hr₁.switch hm₁ hobj hne hset h.laid (hgood l hl hcuts) hsw
    have hname' : ∀ name, u.fnOf name = c.s.fnOf name := fun name =>
      (hname name).trans (fnOf_congr rfl rfl)
    refine ⟨.cut hl hcuts hreg hknown hblk hdests hname' rfl hst hent hleft
      (hent.words.trans hwords), hm, fun o obj ho hor => ?_, h.todo,
      fun g b hb => ?_, fun g hg => ?_, fun hn => (by cases hn), fun l₂ hl₂ => ?_⟩
    · exact hset' o obj ho (hor.resolve_left nofun)
    · exact hent.running.own.laid g b hb
    · have := hent.running.fn
      have hg : t.nextFn ≤ g := hg
      refine (hent.running.layout (Nat.ne_of_gt (lt_of_lt_of_le this hg))).trans ?_
      rw [hblk, finish_layout, show s₁.blk.layout g = [] from h.unborn g (le_trans hfn hg)]
      rfl
    · obtain rfl := Option.some.inj hl₂
      exact ⟨_, _, _, _, hent.running⟩
  · obtain ⟨hrun, hr', hdests, hset', hfn, hwords⟩ := hr₁.turn hobj hsec hset hi
    have hstays : ¬ Cuts c.s l := fun ⟨_, hne, obj', hobj', hat⟩ => by
      obtain rfl := Option.some.inj (hobj.symm.trans hobj')
      exact hno hne hat
    have hkeeps : ∀ body s₀ f pr, Running p c.s l body s₀ f pr →
        c.s.blk.translateInstr p.opts l.addr (body l.addr) = .ok t.blk ∧
          Running p t {l with addr := l.addr + 4} body s₀ f pr := by
      intro body s₀ f pr hr
      have hr₁ : Running p s₁ l body s₀ f pr :=
        ⟨hr.reach, hr.laid, hr.aligned, hr.fn, hr.cur, hr.obj⟩
      obtain ⟨hrun, hr', -⟩ := hr₁.turn hobj hsec hset hi
      exact ⟨hrun, hr'⟩
    refine ⟨.turn hl hlt hstays rfl hkeeps hdests hwords, hm, fun o obj ho hor => ?_, h.todo,
      fun g b hb => hr'.own.laid g b hb, fun g hg => ?_, fun hn => (by cases hn), fun l₂ hl₂ => ?_⟩
    · exact hset' o obj ho (hor.resolve_left nofun)
    · have := hr'.fn
      have hg : t.nextFn ≤ g := hg
      have hne : g ≠ f := Nat.ne_of_gt (lt_of_lt_of_le this hg)
      exact (hr'.layout hne).trans ((hr.layout hne).symm.trans (h.unborn g (le_trans hfn hg)))
    · obtain rfl := Option.some.inj hl₂
      exact ⟨_, _, _, _, hr'⟩

theorem leave (h : Fresh p c) (hl : c.loop = some l) (hge : ¬ l.addr < l.stop)
    (hs : c.s.leave p = .ok t) :
    Step p c ⟨t, c.next, c.todo, none⟩ ∧ Fresh p ⟨t, c.next, c.todo, none⟩ := by
  obtain ⟨body, s₀, f, pr, hr⟩ := h.run l hl
  have hm := h.maps.leave hs
  obtain ⟨obj, hobj, hs⟩ := bind_ok hs
  obtain rfl := Except.ok.inj hs
  obtain ⟨main, k, hinv, -⟩ := hr.inv
  refine ⟨.leave hl (Nat.not_lt.mp hge) rfl rfl rfl rfl, hm, fun o obj' ho _ => ?_, h.todo,
    finish_laid p h.laid, fun g hg => ?_, fun _ => ?_, fun l₂ hl₂ => (by cases hl₂)⟩
  · have ho : Function.update c.s.objs c.s.cur _ o = some obj' := ho
    by_cases hc : o = c.s.cur
    · rw [hc, Function.update_self] at ho
      rw [← Option.some.inj ho]
      refine .inr ?_
      show (c.s.finish p).blk.func.bbMap.data ≠ []
      rw [finish_func]
      obtain ⟨b, hb⟩ := hinv.entry
      exact List.ne_nil_of_mem (Map.get?_eq_some.mp hb)
    · rw [Function.update_of_ne hc] at ho
      exact h.objs o obj' ho (.inr hc)
  · show (c.s.finish p).blk.layout g = []
    rw [finish_layout, h.unborn g hg]
    rfl
  · exact ⟨(finish_updateFirst p c.s).trans hinv.heap.updateFirst, rfl⟩

theorem enter (h : Fresh p c) {F : Func} {todo : List Func} (hl : c.loop = none)
    (htodo : c.todo = F :: todo) (hs : c.s.translateFunc p F = .ok (t, l')) :
    Step p c ⟨t, c.next, todo, some l'⟩ ∧ Fresh p ⟨t, c.next, todo, some l'⟩ := by
  let obj : Obj := {name := F.name, sec := c.s.sec, addr := F.start, stop := some F.stop}
  let s₁ := (c.s.newFunction obj).addFunc c.s.nextObj obj
  have hm₁ : Maps s₁ := h.maps.addFunc obj
  have hs : s₁.translate p c.s.sec c.s.nextObj = .ok (t, l') := hs
  have hent := translate_fresh (s := s₁) hm₁ (addFunc_self h.maps.ids obj) ⟨0, rfl⟩ (h.idle hl).1
    h.laid (h.todo F (htodo ▸ List.mem_cons_self)) (h.idle hl).2 hs
  refine ⟨.enter hl (s := s₁) ⟨F, todo, htodo, rfl⟩ (fun name => fnOf_congr rfl rfl) rfl rfl rfl
    hent hent.words, hm₁.translate hs, fun o obj' ho hor => ?_,
    fun G hG => h.todo G (htodo ▸ List.mem_cons_of_mem _ hG), fun g b hb => ?_, fun g hg => ?_,
    fun hn => (by cases hn), fun l₂ hl₂ => ?_⟩
  · have hne : o ≠ c.s.nextObj := by
      rw [← hent.cur]
      exact hor.resolve_left nofun
    rcases addFunc_objs (hent.objs o obj' ho hne) with ⟨heq, -⟩ | ⟨-, hold⟩
    · exact absurd heq hne
    · exact h.objs o obj' hold (.inl hl)
  · exact hent.running.own.laid g b hb
  · have := hent.running.fn
    have hg : t.nextFn ≤ g := hg
    exact (hent.running.layout (Nat.ne_of_gt (lt_of_lt_of_le this hg))).trans
      (h.unborn g (le_trans hent.nextFn hg))
  · obtain rfl := Option.some.inj hl₂
    exact ⟨_, _, _, _, hent.running⟩

/-- The functions that symbols delimit start at symbols. -/
theorem delimit_start {size : Nat} {syms : List Symbol} {cur : Option Symbol} {F : Func}
    (hF : F ∈ delimit size cur syms) :
    (∃ sym, cur = some sym ∧ F.start = sym.addr) ∨
      ∃ sym ∈ syms, sym.isValid = true ∧ F.start = sym.addr := by
  induction syms generalizing cur with
  | nil =>
    cases cur with
    | none => cases hF
    | some sym =>
      rw [List.mem_singleton.mp hF]
      exact .inl ⟨sym, rfl, rfl⟩
  | cons next rest ih =>
    cases cur with
    | none =>
      unfold delimit at hF
      rcases ih hF with ⟨sym, hsym, hstart⟩ | ⟨sym, hmem, hv⟩
      · split at hsym
        next hv =>
          obtain rfl := Option.some.inj hsym
          exact .inr ⟨next, List.mem_cons_self, hv, hstart⟩
        next => cases hsym
      · exact .inr ⟨sym, List.mem_cons_of_mem _ hmem, hv⟩
    | some sym =>
      unfold delimit at hF
      split at hF
      next hv =>
        rcases List.mem_cons.mp hF with rfl | hF
        · exact .inl ⟨sym, rfl, rfl⟩
        · rcases ih hF with ⟨sym', hsym, hstart⟩ | ⟨sym', hmem, hv'⟩
          · obtain rfl := Option.some.inj hsym
            exact .inr ⟨next, List.mem_cons_self, hv, hstart⟩
          · exact .inr ⟨sym', List.mem_cons_of_mem _ hmem, hv'⟩
      next =>
        rcases ih hF with hcur | ⟨sym', hmem, hv'⟩
        · exact .inl hcur
        · exact .inr ⟨sym', List.mem_cons_of_mem _ hmem, hv'⟩

theorem funcs_aligned (hp : p.Aligned) {sec : Section} (hsec : sec ∈ p.sections) :
    ∀ F ∈ sec.funcs, F.start % 4 = 0 := by
  intro F hF
  unfold Section.funcs at hF
  split at hF
  · rcases delimit_start hF with ⟨sym, hsym, -⟩ | ⟨sym, hmem, hv, heq⟩
    · cases hsym
    · rw [heq]
      exact hp sec hsec sym hmem hv
  · cases hF

/-- **A step of a clean run.** -/
theorem step (hp : p.Aligned) (h : Fresh p c) (hgood : Clean c) (hs : c.step p = .ok c') :
    Step p c c' ∧ Fresh p c' := by
  cases hl : c.loop with
  | some l =>
    obtain ⟨hlt, t, l', ht, rfl⟩ | ⟨hge, t, ht, rfl⟩ := step_loops hl hs
    · exact h.turn hl hlt hgood ht
    · exact h.leave hl (Nat.not_lt.mpr hge) ht
  | none =>
    cases htodo : c.todo with
    | cons F todo =>
      obtain ⟨t, l, ht, rfl⟩ := step_enters hl htodo hs
      exact h.enter hl htodo ht
    | nil =>
      obtain rfl | ⟨sec, hsec, rfl⟩ := step_idle hl htodo hs
      · exact ⟨.idle hl hl (.inl rfl) rfl rfl, h⟩
      · have hm := h.maps
        exact ⟨.idle hl rfl (.inr rfl) rfl rfl,
          ⟨hm.fresh, hm.ids, hm.addr, hm.name, hm.fn, hm.inj⟩,
          fun o obj ho _ => h.objs o obj ho (.inl hl), funcs_aligned hp (List.mem_of_getElem? hsec),
          h.laid, h.unborn, fun _ => ⟨rfl, (h.idle hl).2⟩, fun l hl => (by cases hl)⟩

theorem init (pending : Map Nat PendingReloc) (sections : String → List Constant) :
    Fresh p (Config.init pending sections) :=
  ⟨⟨fun _ _ h => (nomatch h), fun _ _ h => (nomatch h), fun _ _ _ h => (nomatch h),
    fun _ _ h => (nomatch h), fun _ _ h => (nomatch h), fun _ _ _ h => (nomatch h)⟩,
    fun _ _ h => (nomatch h), fun _ h => (nomatch h), fun _ _ h => (nomatch h), fun _ _ => rfl,
    fun _ => ⟨rfl, rfl⟩, fun _ h => (nomatch h)⟩

end Fresh

/-- **Every state of a clean run.** -/
theorem Config.Reach.fresh {good : Config → Prop} {pending : Map Nat PendingReloc}
    {sections : String → List Constant} (hp : p.Aligned)
    (hgood : ∀ c, Fresh p c → good c → Clean c) (h : Config.Reach p good pending sections c) :
    Fresh p c := by
  unfold Config.Reach at h
  induction h with
  | start => exact Fresh.init pending sections
  | step _ hg hs ih => exact (ih.step hp (hgood _ ih hg) hs).2

/-! ### What holds between functions -/

/-- `I` holds of the blocks and of the destinations of indirect branches between two functions,
and held before the one that is being translated. -/
def Between (p : Program) (I : Block.State → (Nat → List Nat) → Prop) (c : Config) : Prop :=
  (c.loop = none → I c.s.blk c.s.dests) ∧
    ∀ l, c.loop = some l → ∃ body s₀ f pr, Running p c.s l body s₀ f pr ∧ I s₀ c.s.dests

/-- What the translation of a function keeps, and a new image. -/
structure Keeps (p : Program) (I : Block.State → (Nat → List Nat) → Prop) : Prop where
  bld : ∀ s d bld, I s d → I {s with bld := bld} d
  image : ∀ s d pending sections, I s d → I {s with pending := pending, sections := sections} d
  finish : ∀ s l body s₀ f pr, Running p s l body s₀ f pr → I s₀ s.dests →
    I (s.finish p).blk (s.finish p).dests

theorem Between.step {I : Block.State → (Nat → List Nat) → Prop} (hk : Keeps p I)
    (h : Between p I c) (hs : Step p c c') : Between p I c' := by
  cases hs with
  | @turn l loop lt stays next keeps dests =>
    refine ⟨fun hn => (by rw [next] at hn; cases hn), fun l₂ hl₂ => ?_⟩
    obtain ⟨body, s₀, f, pr, hr, hI⟩ := h.2 l loop
    rw [next] at hl₂
    obtain rfl := Option.some.inj hl₂
    exact ⟨body, s₀, f, pr, (keeps body s₀ f pr hr).2, dests ▸ hI⟩
  | @leave l loop le next blk dests =>
    refine ⟨fun _ => ?_, fun l₂ hl₂ => (by rw [next] at hl₂; cases hl₂)⟩
    obtain ⟨body, s₀, f, pr, hr, hI⟩ := h.2 l loop
    rw [blk, dests]
    exact hk.finish _ _ _ _ _ _ hr hI
  | @cut l l' o obj s loop cuts registered known blk dests fnOf next st entered left =>
    refine ⟨fun hn => (by rw [next] at hn; cases hn), fun l₂ hl₂ => ?_⟩
    obtain ⟨body, s₀, f, pr, hr, hI⟩ := h.2 l loop
    rw [next] at hl₂
    obtain rfl := Option.some.inj hl₂
    refine ⟨_, _, _, _, entered.running, ?_⟩
    rw [entered.dests, blk, dests]
    exact hk.finish _ _ _ _ _ _ hr hI
  | enter loop named fnOf blk dests next entered =>
    refine ⟨fun hn => (by rw [next] at hn; cases hn), fun l₂ hl₂ => ?_⟩
    rw [next] at hl₂
    obtain rfl := Option.some.inj hl₂
    refine ⟨_, _, _, _, entered.running, ?_⟩
    rw [entered.dests, blk, dests]
    exact h.1 loop
  | idle loop next blk dests =>
    refine ⟨fun _ => ?_, fun l₂ hl₂ => (by rw [next] at hl₂; cases hl₂)⟩
    have hI := h.1 loop
    rw [dests]
    rcases blk with hb | hb
    · rw [hb]
      exact hI
    · rw [hb]
      exact hk.bld _ _ _ hI

theorem Between.run {good : Config → Prop} {I : Block.State → (Nat → List Nat) → Prop}
    (hp : p.Aligned) (hgood : ∀ c, Fresh p c → good c → Clean c) (hk : Keeps p I)
    (hf : Fresh p c) (h : Between p I c) (hrun : Run (Config.step p) good c c') :
    Fresh p c' ∧ Between p I c' := by
  induction hrun with
  | start => exact ⟨hf, h⟩
  | step _ hg hs ih =>
    obtain ⟨hstep, hfresh⟩ := ih.1.step hp (hgood _ ih.1 hg) hs
    exact ⟨hfresh, ih.2.step hk hstep⟩

/-- **What holds between the functions of a clean run.** -/
theorem Config.Reach.between {good : Config → Prop} {pending : Map Nat PendingReloc}
    {sections : String → List Constant} {I : Block.State → (Nat → List Nat) → Prop}
    (hp : p.Aligned) (hgood : ∀ c, Fresh p c → good c → Clean c) (hk : Keeps p I)
    (hinit : I (Config.init pending sections).s.blk (Config.init pending sections).s.dests)
    (h : Config.Reach p good pending sections c) : Between p I c :=
  (Between.run hp hgood hk (Fresh.init pending sections)
    ⟨fun _ => hinit, fun _ hl => (by cases hl)⟩ h).2

end RiscvSbt.Context
