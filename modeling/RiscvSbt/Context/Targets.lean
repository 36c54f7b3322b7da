import RiscvSbt.Context.Boundary
import RiscvSbt.Context.Distinguished
import RiscvSbt.Context.Tables

/-! Where branches, jumps and calls with a known target go.

`handleCall` looks the function at the target up, by the bare address. `handleJump` stops at a
target that lies before the function or is the instruction itself, and makes a block for one that
lies ahead: whether code of that address gets into the block is seen at the end of the function. -/
namespace RiscvSbt.Context
open Library Block State

/-- The bare address `a` means its place in the section `k`: the function that is known there is of
the section, or none is known and the section is the one that is translated. -/
def Meant (s : State) (k a : Nat) : Prop :=
  match s.funcByAddr.get? a with
  | some o => ∃ obj, s.objs o = some obj ∧ obj.sec = k
  | none => k = s.sec

/-- From `s` to `t` a call was emitted, of the function at the address `a` of the section `k`, that
is known there. -/
def CallsAt (s t : State) (k a : Nat) : Prop :=
  ∃ o obj f, t.funcByAddr.get? a = some o ∧ t.objs o = some obj ∧ obj.sec = k ∧ obj.addr = a ∧
    obj.f = some f ∧ t.calls = s.calls ++ [(a, f)]

/-- In the block `x`, the code of the instruction at `a` ends with a branch to `b`: always, or if
the condition of the instruction holds. -/
def GoesTo (t : Block.State) (x a b : Nat) : Prop :=
  ∃ q i m r j, (t.bbs x).insts = q ++ i :: m ++ r ∧ t.marks i.id = some a ∧
    (∀ y ∈ m, t.marks y.id = none) ∧ (i :: m).getLast? = some j ∧
    (j.kind = .br b ∨ ∃ n, j.kind = .condBr (.guest a) b n)

/-- The code of an instruction at `l.addr`, that is translated from `d` on, gets to the instruction
at `k`. -/
structure Carried (p : Program) (d : Config) (l : Loop) (sec k : Nat) (act : Act) : Prop where
  /-- What links calls the function at `k`. -/
  call : act = .call k → ∀ d', d.step p = .ok d' →
    (CallsAt d.s d'.s sec k ↔ Meant d.s sec k)
  /-- There is no translation of what goes to itself, or to before its function. -/
  stop : act.target? = some k → k = l.addr ∨ k < l.st → ∀ d', d.step p ≠ .ok d'
  /-- When its function has ended, the code goes to a block that begins with the instruction at `k`
  just if the range of the function has that. -/
  jump : act.target? = some k → ∀ c l' c₂, Moves p Turning (fun _ _ _ => True) d c →
    c.loop = some l' → l.addr < l'.addr → Cuts c.s l' ∨ l'.stop ≤ l'.addr → Apart p c →
    c.step p = .ok c₂ → ∀ c', Moves p (Apart p) (fun _ _ _ => True) c₂ c' →
    ((∃ key x b, c.s.blk.findBB key = some x ∧ GoesTo c'.s.blk x l.addr b ∧
      Begins c'.s.blk b k) ↔ k < l'.addr)

variable {p : Program} {s t : State} {l l' : Loop} {c c' c₀ : Config} {body : Nat → Inst}
  {s₀ : Block.State} {f : FnId} {pr a k : Nat} {good : Config → Prop}
  {looks : Config → Nat → Nat → Prop} {I : Block.State → (Nat → List Nat) → Prop}

/-! ### Runs with lookups -/

/-- **Inside of a function**, with lookups. -/
theorem Moves.running (hp : p.Aligned) (hf : Fresh p c₀) (hl : c₀.loop = some l)
    (hr : Running p c₀.s l body s₀ f pr) (h : Moves p Turning looks c₀ c) :
    Fresh p c ∧ c.s.dests = c₀.s.dests ∧ ∃ l', c.loop = some l' ∧ l'.st = l.st ∧
      Running p c.s l' body s₀ f pr := by
  induction h with
  | start => exact ⟨hf, rfl, l, hl, rfl, hr⟩
  | @step c c' _ hgood hs ih =>
    obtain ⟨hf, hdests, l₁, hl₁, hst, hr⟩ := ih
    obtain ⟨hf', hdests', l₂, hl₂, hst', hr'⟩ :=
      Turns.running hp hf hl₁ hr (.step .start hgood hs)
    exact ⟨hf', hdests'.trans hdests, l₂, hl₂, hst'.trans hst, hr'⟩
  | image pending sections _ idle _ ih =>
    obtain ⟨-, -, l₁, hl₁, -⟩ := ih
    cases idle.symm.trans hl₁
  | look _ _ look ih =>
    obtain ⟨hf, hdests, l₁, hl₁, hst, hr⟩ := ih
    have ha := look.aside
    exact ⟨hf.aside ha (look.maps hf.maps), ha.dests.trans hdests, l₁, hl₁, hst, hr.aside ha⟩

/-! ### Branches and jumps -/

/-- No instruction that is translated goes to itself. -/
theorem translateInstr_ne {u v : Block.State} {opts : Block.Options} {inst : Inst}
    (h : u.translateInstr opts a inst = .ok v) (htgt : inst.act.target? = some k) : k ≠ a := by
  have hjump : ∀ {x y : Block.State} {cond : Option Cond},
      x.handleJump a k cond 0 = .ok y → k ≠ a := by
    rintro x y cond hx rfl
    unfold State.handleJump at hx
    rw [if_pos rfl] at hx
    cases hx
  obtain ⟨w, hw, -⟩ := bind_ok h
  unfold Block.State.translate at hw
  cases hact : inst.act with
  | branch | jump =>
    rw [hact] at htgt hw
    obtain rfl := Option.some.inj htgt
    obtain ⟨x, hx, -⟩ := bind_ok hw
    exact hjump hx
  | _ =>
    rw [hact] at htgt
    cases htgt

namespace Running

/-- **The code of a branch or a jump**, once the function has ended. -/
theorem goes {t : Block.State} {e : Nat → List Nat} (h : Running p s l body s₀ f pr)
    (hs : Linked s₀ s.dests) (hk : Kept (s.finish p).blk (s.finish p).dests t e)
    (h₁ : l.st ≤ a) (h₂ : a < l.addr) (h₃ : a % 4 = 0) (htgt : (body a).act.target? = some k) :
    (∃ key x b, s.blk.findBB key = some x ∧ GoesTo t x a b ∧ Begins t b k) ↔ k < l.addr := by
  obtain ⟨main, key, hinv, -⟩ := h.inv
  constructor
  · -- The branch stays in the function, whose blocks only have code of its range.
    rintro ⟨key, x, b, hx, ⟨q, i, m, r, j, hins, -, -, hj, hkind⟩, ⟨-, q', i', r', hins', -, hi'⟩⟩
    have hlinked := h.finish_linked hs
    have hlt : ∀ {b}, s.Owns b → b < (s.finish p).blk.nextBlock := fun hb => by
      rw [finish_nextBlock]
      exact (h.owns_iff.mp hb).2
    have hown : s.Owns x := .inl ⟨key, hx⟩
    have hmem : j ∈ ((s.finish p).blk.bbs x).insts := by
      rw [← hk.bbs x (hlt hown), hins]
      exact List.mem_append_left _ (List.mem_append_right _ (List.mem_of_getLast? hj))
    have hb : s.Owns b := by
      refine (h.finish_own hs hown hmem).1 b ?_
      rcases hkind with hkind | ⟨n, hkind⟩ <;> simp [hkind, Kind.succs]
    have hmem' : i' ∈ ((s.finish p).blk.bbs b).insts := by
      rw [← hk.bbs b (hlt hb), hins']
      simp
    rw [hk.marks _ (hlinked.ids b (hlt hb) i' hmem')] at hi'
    exact (h.finish_own hs hb hmem').2.2 k hi'
  · intro hlt
    obtain ⟨key, x, e, hx, hcode, hle, hlt', hmod⟩ := hinv.code_at h₁ h₂ h₃
    obtain ⟨q, i, m, j, hins, hi, hm, hj, ht⟩ :=
      hcode.ends_at hle hlt' hmod (Act.stays_target htgt)
    obtain ⟨b, hb, hkind⟩ := ht.goes htgt
    obtain ⟨hn, hxn, -⟩ := h.own.tracked key x hx
    have hids : ∀ y ∈ i :: m, y.id < s.blk.nextInstr := fun y hy =>
      hinv.heap.ids x hn hxn y (by
        rw [hins]
        exact List.mem_append_right _ hy)
    obtain ⟨r, hr, -⟩ := hk.later_insts hxn
    refine ⟨key, x, b, hx, ⟨q, i, m, r, j, ?_, ?_, fun y hy => ?_, hj, hkind⟩,
      h.begins hk hb hlt⟩
    · rw [hr, hins]
    · rw [hk.later_marks (hids i List.mem_cons_self)]
      exact hi
    · rw [hk.later_marks (hids y (List.mem_cons_of_mem _ hy))]
      exact hm y hy

/-- A branch or a jump that is translated has a block to go to. -/
theorem target_le (h : Running p s l body s₀ f pr) (h₁ : l.st ≤ a) (h₂ : a < l.addr)
    (h₃ : a % 4 = 0) (htgt : (body a).act.target? = some k) : l.st ≤ k := by
  obtain ⟨main, key, hinv, -⟩ := h.inv
  obtain ⟨b', -, -, i, -, ht⟩ := hinv.ending h₁ h₂ h₃ (Act.stays_target htgt)
  obtain ⟨b, hb, -⟩ := ht.goes htgt
  exact (hinv.bounds k ⟨b, hb⟩).1

end Running

/-! ### Calls -/

theorem meant_known {o : Nat} {obj : Obj} (hat : s.funcByAddr.get? a = some o)
    (ho : s.objs o = some obj) : Meant s k a ↔ obj.sec = k := by
  unfold Meant
  rw [hat]
  refine ⟨?_, fun hk => ⟨obj, ho, hk⟩⟩
  rintro ⟨obj', ho', rfl⟩
  rw [Option.some.inj (ho.symm.trans ho')]

/-- What is looked up is at the place just if the bare address means that. -/
theorem getByAddr_meant {sec : Section} {o : Nat} {obj : Obj} (h : s.getByAddr sec a = .ok (o, t))
    (ho : t.objs o = some obj) : Meant s k a ↔ obj.sec = k := by
  cases hknown : s.funcByAddr.get? a with
  | some o' =>
    obtain ⟨rfl, rfl⟩ := getByAddr_known h hknown
    exact meant_known hknown ho
  | none =>
    -- What is made up is of the section that is translated.
    unfold Meant
    rw [hknown]
    obtain ⟨-, hobj⟩ | ⟨hne, -⟩ := getByAddr_objs h hknown ho
    · rw [hobj]
      exact eq_comm
    · exact absurd (getByAddr_add h hknown).1 hne

/-- **The function that a call is of.** -/
theorem handleCall_iff {sec : Section} {x : Nat} (hm : Maps s) (h : s.handleCall sec k = .ok t) :
    CallsAt s t x k ↔ Meant s x k := by
  obtain ⟨o, u, f, hu, ⟨obj, ho, hf⟩, rfl⟩ := handleCall_ok h
  have hget := (hm.getByAddr hu).2.1
  rw [getByAddr_meant hu ho]
  constructor
  · rintro ⟨o', obj', f', hget', ho', rfl, -⟩
    obtain rfl := Option.some.inj (hget.symm.trans hget')
    rw [Option.some.inj (ho.symm.trans ho')]
  · rintro rfl
    exact ⟨o, obj, f, hget, ho, rfl, (hm.getByAddr hu).1.addr k o obj hget ho, hf,
      congrArg (· ++ [(k, f)]) (getByAddr_calls hu)⟩

/-! ### What comes of an instruction -/

theorem updateNextFuncAddr_le {x y : Nat} (hm : Maps s) (h : s.updateNextFuncAddr x a = .ok t) :
    t.nextFuncAddr y = s.nextFuncAddr y ∨ a ≤ t.nextFuncAddr y := by
  unfold State.updateNextFuncAddr at h
  cases hl : s.funcByAddr.lowerBound a with
  | none =>
    rw [hl] at h
    exact .inl (by rw [Except.ok.inj h])
  | some i =>
    obtain ⟨key, o⟩ := i
    rw [hl] at h
    obtain ⟨obj, hobj, h⟩ := bind_ok h
    obtain ⟨hget, hle, -⟩ := Map.lowerBound_eq_some.mp hl
    have haddr := hm.addr key o obj hget (live_ok hobj)
    simp only [haddr] at h
    split at h
    next => exact .inl (by rw [Except.ok.inj h])
    next =>
      split at h
      next => exact .inl (by rw [Except.ok.inj h])
      next =>
        obtain rfl := Except.ok.inj h
        by_cases hx : y = x
        · refine .inr (le_of_le_of_eq hle ?_)
          rw [hx]
          exact (Function.update_self (f := s.nextFuncAddr) x key).symm
        · exact .inl (Function.update_of_ne hx ..)

/-- A lookup does not move the next switch to before what is looked up. -/
theorem getByAddr_next {sec : Section} {o : Nat} (hm : Maps s) (h : s.getByAddr sec a = .ok (o, t))
    (x : Nat) : t.nextFuncAddr x = s.nextFuncAddr x ∨ a ≤ t.nextFuncAddr x := by
  cases hget : s.funcByAddr.get? a with
  | some o' =>
    obtain ⟨-, rfl⟩ := getByAddr_known h hget
    exact .inl rfl
  | none =>
    obtain ⟨-, hu⟩ := getByAddr_update h hget
    have hma := (hm.create (nameAt sec a)).addFunc (s.madeUp sec a)
    obtain ⟨f, m, n, hc⟩ := create_ok s (nameAt sec a)
    unfold State.added at hu
    rw [hc] at hma hu
    have hle := updateNextFuncAddr_le (y := x) hma hu
    exact hle

/-- **Where an instruction with a known target goes**, whatever its relocation makes known. -/
theorem Moves.carried (hp : p.Aligned) {c : Config} {l : Loop} {obj : Obj}
    {pending : Map Nat PendingReloc} {sections : String → List Constant}
    (h : Moves p (Apart p) looks (Config.init pending sections) c) (hl : c.loop = some l)
    (hlt : l.addr < l.stop) (hcut : ¬ Cuts c.s l) (hobj : c.s.objs c.s.cur = some obj)
    (ha : Aside c.s t) (hm : Maps t)
    (hnext : ∀ x, t.nextFuncAddr x = c.s.nextFuncAddr x ∨ l.addr < t.nextFuncAddr x) (k : Nat) :
    Carried p {c with s := t} l obj.sec k (p.body obj.sec l.addr).act := by
  have hclean : ∀ c, Fresh p c → Apart p c → Clean c := fun _ hf hg => hf.clean hg
  obtain ⟨hf, hb⟩ := h.between hp hclean (linked_keeps p) (.init _ _)
    ⟨fun _ => .init, fun _ hl => (by cases hl)⟩
  have hf' : Fresh p {c with s := t} := hf.aside ha hm
  obtain ⟨body, s₀, f, pr, hr, hlinked⟩ := hb.2 l hl
  obtain ⟨rfl, -⟩ := hr.obj obj hobj
  have hr' := hr.aside ha
  obtain ⟨main, key, hinv, -⟩ := hr.inv
  have hmod := hinv.aligned
  have hcur : ∀ {obj'}, t.objs t.cur = some obj' → obj' = obj := fun {obj'} ho => by
    rw [ha.cur] at ho
    rcases ha.objs _ _ ho with hold | ⟨heq, -⟩
    · exact Option.some.inj (hold.symm.trans hobj)
    · exact absurd heq (Nat.ne_of_lt hr.cur)
  have hcut' : ¬ Cuts t l := fun ⟨_, hne, obj', hobj', hat⟩ => by
    rw [hcur hobj'] at hat
    rcases hnext obj.sec with heq | hlt'
    · exact hcut ⟨hlt, hne, obj, hobj, hat.trans heq⟩
    · omega
  refine ⟨fun hact d' hs => ?_, fun htgt hor d' hs => ?_,
    fun htgt d l' c₂ hrun hl' hlt' hend hapart hs₂ c' hrun' => ?_⟩
  · obtain ⟨-, u, l₁, hu, rfl⟩ | ⟨hge, -⟩ := step_loops (c := {c with s := t}) hl hs
    · obtain ⟨obj', hobj', ⟨hne, hat, -⟩ | ⟨-, -, sec, hsec, hinstr⟩⟩ := turn_ok hu
      · exact absurd ⟨hlt, hne, obj', hobj', hat⟩ hcut'
      obtain rfl := hcur hobj'
      have hact : (sec.inst l.addr).act = .call k := by
        unfold Program.body at hact
        rwa [hsec] at hact
      obtain ⟨v, blk, rfl, -, ⟨hnone, -⟩ | ⟨target, cur, htarget, -, hcall⟩⟩ :=
        translateInstr_ok hinstr
      · rw [hact] at hnone
        cases hnone
      · rw [hact] at htarget
        obtain rfl := Option.some.inj htarget
        have hiff := handleCall_iff (s := {t with addr := l.addr}) (x := obj'.sec)
          ⟨hm.fresh, hm.ids, hm.addr, hm.name, hm.fn, hm.inj⟩ hcall
        exact hiff
    · omega
  · obtain ⟨hstep, -⟩ := hf'.step hp (fun l₁ hl₁ hc => by
      obtain rfl := Option.some.inj (hl.symm.trans hl₁)
      exact absurd hc hcut') hs
    cases hstep with
    | @turn l₁ loop lt stays next keeps =>
      obtain rfl := Option.some.inj (hl.symm.trans loop)
      obtain ⟨hblk, hr₁⟩ := keeps _ _ _ _ hr'
      have hle : l.st ≤ l.addr := hr.le
      have hst := hr₁.target_le (a := l.addr) hle (Nat.lt_add_of_pos_right (by decide)) hmod htgt
      rcases hor with heq | hlt'
      · exact translateInstr_ne hblk htgt heq
      · exact absurd hst (Nat.not_le.mpr hlt')
    | leave loop le =>
      obtain rfl := Option.some.inj (hl.symm.trans loop)
      omega
    | cut loop cuts =>
      obtain rfl := Option.some.inj (hl.symm.trans loop)
      exact absurd cuts hcut'
    | enter loop => cases hl.symm.trans loop
    | idle loop => cases hl.symm.trans loop
  · obtain ⟨hfd, hdests, l₂, hl₂, hst, hrd⟩ := hrun.running hp hf' hl hr'
    obtain rfl := Option.some.inj (hl'.symm.trans hl₂)
    obtain ⟨hstep, hf₂⟩ := hfd.step hp (hclean _ hfd hapart) hs₂
    have hkept := (hrun'.between hp hclean (kept_keeps p _ _) hf₂
      (hstep.ended hl' hend (.refl _ _))).2.kept
    have hle : l'.st ≤ l.addr := hst ▸ hr.le
    have hlinked' : Linked s₀ d.s.dests := by
      rw [hdests]
      show Linked s₀ t.dests
      rwa [ha.dests]
    exact hrd.goes hlinked' hkept hle hlt' hmod htgt

end RiscvSbt.Context
