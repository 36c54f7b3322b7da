import RiscvSbt.Context.Machine

/-! The functions that are known by address.

What every operation does to the map of functions by address and to `_nextFuncAddr`. The
blocks of a function do not matter here: `Same` says that two states differ in nothing
that finds functions. -/
namespace RiscvSbt.Context
open Library State

/-- A function is known at an address. -/
def Registered (s : State) (a : Nat) : Prop := ∃ o, s.funcByAddr.get? a = some o

/-- Functions are known where they are, and all lie in one section. -/
structure Keyed (s : State) : Prop where
  fresh : ∀ a o, s.funcByAddr.get? a = some o → o < s.nextObj
  addr : ∀ a o obj, s.funcByAddr.get? a = some o → s.objs o = some obj → obj.addr = a
  sec : ∀ o obj, s.objs o = some obj → obj.sec = s.sec

/-- Functions are found alike. -/
structure Same (s t : State) : Prop where
  funcByAddr : t.funcByAddr = s.funcByAddr
  nextFuncAddr : t.nextFuncAddr = s.nextFuncAddr
  addr : t.addr = s.addr
  sec : t.sec = s.sec
  nextObj : t.nextObj = s.nextObj
  objs : ∀ o obj, t.objs o = some obj →
    ∃ obj', s.objs o = some obj' ∧ obj.addr = obj'.addr ∧ obj.sec = obj'.sec

/-- Where `_nextFuncAddr` goes, when the next function known is at `nfa`. -/
def closest (N addr : Nat) : Option Nat → Nat
  | none => N
  | some nfa => if nfa < addr ∨ (addr < N ∧ N < nfa) then N else nfa

/-- The `_nextFuncAddr` of a section after looking for functions from `next` on. -/
def nextAfter (s : State) (x next : Nat) : Nat :=
  closest (s.nextFuncAddr x) s.addr ((s.funcByAddr.lowerBound next).map Prod.fst)

def setNext (s : State) (x N : Nat) : State :=
  {s with nextFuncAddr := Function.update s.nextFuncAddr x N}

variable {p : Program} {s t u : State} {obj : Obj} {sec : Section} {o a g next addr : Nat}

theorem live_ok (h : s.live o = .ok obj) : s.objs o = some obj := by
  unfold State.live at h
  split at h
  next heq => rw [heq, Except.ok.inj h]
  next => exact nomatch h

namespace Same

theorem trans (h : Same s t) (h' : Same t u) : Same s u := by
  refine ⟨h'.funcByAddr.trans h.funcByAddr, h'.nextFuncAddr.trans h.nextFuncAddr,
    h'.addr.trans h.addr, h'.sec.trans h.sec, h'.nextObj.trans h.nextObj, fun o obj ho => ?_⟩
  obtain ⟨obj', ho', ha, hs⟩ := h'.objs o obj ho
  obtain ⟨obj'', ho'', ha', hs'⟩ := h.objs o obj' ho'
  exact ⟨obj'', ho'', ha.trans ha', hs.trans hs'⟩

/-- An object may change, but not move. -/
theorem setObj {obj' : Obj} (ho : s.objs o = some obj) (ha : obj'.addr = obj.addr)
    (hs : obj'.sec = obj.sec) : Same s (s.setObj o obj') := by
  refine ⟨rfl, rfl, rfl, rfl, rfl, fun x obj'' hx => ?_⟩
  by_cases hxo : x = o
  · subst hxo
    obtain rfl : obj' = obj'' := by
      simpa [State.setObj] using hx
    exact ⟨obj, ho, ha, hs⟩
  · refine ⟨obj'', ?_, rfl, rfl⟩
    simpa [State.setObj, hxo] using hx

theorem registered (h : Same s t) : Registered t a ↔ Registered s a := by
  unfold Registered
  rw [h.funcByAddr]

theorem keyed (h : Same s t) (hk : Keyed s) : Keyed t := by
  refine ⟨fun a o ho => ?_, fun a o obj ho hobj => ?_, fun o obj hobj => ?_⟩
  · rw [h.funcByAddr] at ho
    rw [h.nextObj]
    exact hk.fresh a o ho
  · rw [h.funcByAddr] at ho
    obtain ⟨obj', hobj', ha, -⟩ := h.objs o obj hobj
    rw [ha]
    exact hk.addr a o obj' ho hobj'
  · obtain ⟨obj', hobj', -, hs⟩ := h.objs o obj hobj
    rw [hs, h.sec]
    exact hk.sec o obj' hobj'

end Same

/-! ### Registration -/

theorem addFunc_registered :
    Registered ((s.newFunction obj).addFunc o obj) a ↔ a = obj.addr ∨ Registered s a := by
  unfold Registered State.addFunc State.newFunction State.setObj
  simp only [Map.get?_upsert]
  by_cases h : a = obj.addr
  · simp [h]
  · simp [h]

/-- Of the functions that are alive, all but the new one were there before. -/
theorem addFunc_objs {obj' : Obj}
    (h : ((s.newFunction obj).addFunc s.nextObj obj).objs o = some obj') :
    (o = s.nextObj ∧ obj' = obj) ∨ (o ≠ s.nextObj ∧ s.objs o = some obj') := by
  have hnew : (s.newFunction obj).objs o = some obj' := by
    have h : destroy (s.newFunction obj).objs (s.func.get? obj.name) o = some obj' := h
    cases hf : s.func.get? obj.name with
    | none => rw [hf] at h; exact h
    | some old =>
      rw [hf] at h
      by_cases ho : o = old
      · subst ho
        simp [State.destroy] at h
      · simpa [State.destroy, ho] using h
  by_cases ho : o = s.nextObj
  · subst ho
    exact .inl ⟨rfl, by simpa [State.newFunction, State.setObj] using hnew.symm⟩
  · exact .inr ⟨ho, by simpa [State.newFunction, State.setObj, ho] using hnew⟩

/-- A destroyed function is known by address still; the new one is where it is. -/
theorem Keyed.addFunc (hk : Keyed s) (hsec : obj.sec = s.sec) :
    Keyed ((s.newFunction obj).addFunc s.nextObj obj) := by
  have hget : ∀ a o, ((s.newFunction obj).addFunc s.nextObj obj).funcByAddr.get? a = some o →
      (a = obj.addr ∧ o = s.nextObj) ∨ (s.funcByAddr.get? a = some o) := by
    intro a o h
    have h' : (s.funcByAddr.upsert obj.addr s.nextObj).get? a = some o := h
    rw [Map.get?_upsert] at h'
    split at h'
    next heq => exact .inl ⟨heq, (Option.some.inj h').symm⟩
    next => exact .inr h'
  refine ⟨fun a o ho => ?_, fun a o obj' ho hobj => ?_, fun o obj' hobj => ?_⟩
  · show o < s.nextObj + 1
    rcases hget a o ho with ⟨-, rfl⟩ | ho
    · exact Nat.lt_succ_self _
    · exact Nat.lt_succ_of_lt (hk.fresh a o ho)
  · rcases hget a o ho with ⟨rfl, rfl⟩ | ho
    · rcases addFunc_objs hobj with ⟨-, rfl⟩ | ⟨hne, -⟩
      · rfl
      · exact absurd rfl hne
    · rcases addFunc_objs hobj with ⟨rfl, -⟩ | ⟨-, hobj⟩
      · exact absurd (hk.fresh a _ ho) (lt_irrefl _)
      · exact hk.addr a o obj' ho hobj
  · show obj'.sec = s.sec
    rcases addFunc_objs hobj with ⟨-, rfl⟩ | ⟨-, hobj⟩
    · exact hsec
    · exact hk.sec o obj' hobj

theorem updateNextFuncAddr_ok {x : Nat} (hk : Keyed s) (h : s.updateNextFuncAddr x next = .ok t) :
    t = setNext s x (nextAfter s x next) := by
  unfold State.updateNextFuncAddr at h
  unfold setNext nextAfter
  cases hl : s.funcByAddr.lowerBound next with
  | none =>
    rw [hl] at h
    obtain rfl := Except.ok.inj h
    simp [closest]
  | some i =>
    obtain ⟨k, nf⟩ := i
    rw [hl] at h
    obtain ⟨obj, hobj, h⟩ := bind_ok h
    -- The function found is where the map has it.
    have haddr : obj.addr = k :=
      hk.addr k nf obj (Map.lowerBound_eq_some.mp hl).1 (live_ok hobj)
    simp only [haddr] at h
    simp only [Option.map_some, closest]
    split at h
    next hlt =>
      obtain rfl := Except.ok.inj h
      simp [hlt]
    next hlt =>
      split at h
      next hn =>
        obtain rfl := Except.ok.inj h
        simp [hn]
      next hn =>
        obtain rfl := Except.ok.inj h
        rw [if_neg (not_or.mpr ⟨hlt, hn⟩)]

theorem updateNextFuncAddr_eq {x : Nat} (h : s.updateNextFuncAddr x next = .ok t) :
    ∃ N, t = {s with nextFuncAddr := N} := by
  unfold State.updateNextFuncAddr at h
  split at h
  next => exact ⟨_, (Except.ok.inj h).symm⟩
  next =>
    obtain ⟨obj, -, h⟩ := bind_ok h
    dsimp only at h
    split at h
    next => exact ⟨_, (Except.ok.inj h).symm⟩
    next =>
      split at h
      next => exact ⟨_, (Except.ok.inj h).symm⟩
      next => exact ⟨_, (Except.ok.inj h).symm⟩

theorem create_ok (s : State) (name : String) :
    ∃ f m n, s.create name = (f, {s with module := m, nextFn := n}) := by
  unfold State.create
  cases s.module.get? name with
  | some f => exact ⟨f, s.module, s.nextFn, rfl⟩
  | none => exact ⟨_, _, _, rfl⟩

/-- The object that a lookup makes up. -/
def State.madeUp (s : State) (sec : Section) (a : Nat) : Obj :=
  {name := nameAt sec a, sec := s.sec, addr := a, f := some (s.create (nameAt sec a)).1}

/-- The state in which a lookup enters it. -/
def State.added (s : State) (sec : Section) (a : Nat) : State :=
  ((s.create (nameAt sec a)).2.newFunction (s.madeUp sec a)).addFunc s.nextObj (s.madeUp sec a)

theorem getByAddr_known {o' : Nat} (h : s.getByAddr sec a = .ok (o, t))
    (hget : s.funcByAddr.get? a = some o') : o' = o ∧ t = s := by
  unfold State.getByAddr at h
  rw [hget] at h
  obtain ⟨rfl, rfl⟩ := Prod.mk.inj (Except.ok.inj h)
  exact ⟨rfl, rfl⟩

/-- A lookup of an address where no function is known adds one. -/
theorem getByAddr_update (h : s.getByAddr sec a = .ok (o, t)) (hget : s.funcByAddr.get? a = none) :
    o = s.nextObj ∧ (s.added sec a).updateNextFuncAddr s.sec a = .ok t := by
  unfold State.getByAddr at h
  rw [hget] at h
  unfold State.added State.madeUp
  obtain ⟨f, m, n, hc⟩ := create_ok s (nameAt sec a)
  simp only [hc] at h ⊢
  obtain ⟨v, hv, h⟩ := bind_ok h
  obtain ⟨rfl, rfl⟩ := Prod.mk.inj (Except.ok.inj h)
  exact ⟨rfl, hv⟩

theorem getByAddr_add (h : s.getByAddr sec a = .ok (o, t)) (hget : s.funcByAddr.get? a = none) :
    o = s.nextObj ∧ ∃ N, t = {s.added sec a with nextFuncAddr := N} := by
  obtain ⟨rfl, hu⟩ := getByAddr_update h hget
  exact ⟨rfl, updateNextFuncAddr_eq hu⟩

/-- What entering it leaves alone. -/
theorem added_eq (s : State) (sec : Section) (a : Nat) : ∃ m n, s.added sec a =
    ((({s with module := m, nextFn := n} : State).newFunction (s.madeUp sec a)).addFunc s.nextObj
      (s.madeUp sec a)) := by
  obtain ⟨f, m, n, hc⟩ := create_ok s (nameAt sec a)
  exact ⟨m, n, by rw [State.added, hc]⟩

/-- Looking a function up, or making one up. -/
theorem getByAddr_ok (hk : Keyed s) (h : s.getByAddr sec addr = .ok (o, t)) :
    (s.funcByAddr.get? addr = some o ∧ t = s) ∨
      (¬Registered s addr ∧ Keyed t ∧ t.addr = s.addr ∧ t.sec = s.sec ∧ t.cur = s.cur ∧
        (∀ a, Registered t a ↔ a = addr ∨ Registered s a) ∧
        t.nextFuncAddr = Function.update s.nextFuncAddr s.sec
          (closest (s.nextFuncAddr s.sec) s.addr (some addr))) := by
  cases hget : s.funcByAddr.get? addr with
  | some o' =>
    obtain ⟨rfl, rfl⟩ := getByAddr_known h hget
    exact .inl ⟨rfl, rfl⟩
  | none =>
    obtain ⟨-, hu⟩ := getByAddr_update h hget
    obtain ⟨m, n, heq⟩ := added_eq s sec addr
    rw [heq] at hu
    -- The function is entered in a state that differs from `s` by the module only.
    have hk' : Keyed {s with module := m, nextFn := n} := ⟨hk.fresh, hk.addr, hk.sec⟩
    have hk'' : Keyed ((State.newFunction _ (s.madeUp sec addr)).addFunc s.nextObj _) :=
      hk'.addFunc rfl
    obtain rfl := updateNextFuncAddr_ok hk'' hu
    refine .inr ⟨fun ⟨o', ho'⟩ => ?_, ⟨hk''.fresh, hk''.addr, hk''.sec⟩, rfl, rfl, rfl,
      fun a => addFunc_registered, ?_⟩
    · rw [hget] at ho'
      exact nomatch ho'
    · show Function.update s.nextFuncAddr s.sec (closest (s.nextFuncAddr s.sec) s.addr
        (((s.funcByAddr.upsert addr s.nextObj).lowerBound addr).map Prod.fst)) = _
      rw [Map.lowerBound_self (Map.get?_upsert_self _ _ _)]
      rfl

theorem handleCall_ok (h : s.handleCall sec a = .ok t) :
    ∃ o u f, s.getByAddr sec a = .ok (o, u) ∧ (∃ obj, u.objs o = some obj ∧ obj.f = some f) ∧
      t = {u with calls := u.calls ++ [(a, f)]} := by
  obtain ⟨⟨o, u⟩, hu, h⟩ := bind_ok h
  obtain ⟨obj, hobj, h⟩ := bind_ok h
  cases hf : obj.f with
  | none => simp only [hf] at h; exact nomatch h
  | some f =>
    simp only [hf] at h
    exact ⟨o, u, f, hu, ⟨obj, live_ok hobj, hf⟩, (Except.ok.inj h).symm⟩

/-! ### Translating a function -/

theorem Same.finish (p : Program) (s : State) : Same s (s.finish p) :=
  ⟨rfl, rfl, rfl, rfl, rfl, fun _ obj h => ⟨obj, h, rfl, rfl⟩⟩

/-- Starting a function finds an LLVM function for it and fills the entry block. -/
theorem start_ok (p : Program) (s : State) (o : Nat) (obj : Obj) :
    ∃ f m n im blk, s.start p o obj = { s.setObj o {obj with f := some f} with
      blk := blk, module := m, nextFn := n, inMain := im } := by
  unfold State.start
  split
  · exact ⟨_, _, _, _, _, rfl⟩
  · obtain ⟨f, m, n, hc⟩ := create_ok s obj.name
    rw [hc]
    exact ⟨_, _, _, _, _, rfl⟩

theorem Same.start (p : Program) (ho : s.objs o = some obj) : Same s (s.start p o obj) := by
  obtain ⟨f, m, n, im, blk, heq⟩ := start_ok p s o obj
  rw [heq]
  have h : Same s (s.setObj o {obj with f := some f}) := .setObj ho rfl rfl
  exact ⟨rfl, rfl, rfl, rfl, rfl, h.objs⟩

theorem Same.leave (h : s.leave p = .ok t) : Same s t := by
  obtain ⟨obj, hobj, h⟩ := bind_ok h
  obtain rfl := Except.ok.inj h
  exact (Same.finish p s).trans (.setObj (live_ok hobj) rfl rfl)

/-- What the translation of a function begins with. -/
theorem translate_cases {x : Nat} {l : Loop} (h : s.translate p x o = .ok (t, l)) :
    ∃ obj v, s.objs o = some obj ∧
      ({s with cur := o} : State).updateNextFuncAddr x (obj.addr + 4) = .ok v ∧
      obj.stop = some l.stop ∧ l.st = obj.addr ∧ l.addr = obj.addr ∧ t = v.start p o obj := by
  obtain ⟨obj, hobj, h⟩ := bind_ok h
  obtain ⟨v, hv, h⟩ := bind_ok h
  cases hstop : obj.stop with
  | none =>
    rw [hstop] at h
    cases h
  | some stop =>
    rw [hstop] at h
    obtain ⟨rfl, rfl⟩ := Prod.mk.inj (Except.ok.inj h)
    exact ⟨obj, v, live_ok hobj, hv, hstop, rfl, rfl, rfl⟩

/-- A function that is translated is looked for from the next instruction on. -/
theorem translate_ok {x : Nat} {l : Loop} (hk : Keyed s) (h : s.translate p x o = .ok (t, l)) :
    ∃ obj, s.objs o = some obj ∧ obj.stop = some l.stop ∧ l.st = obj.addr ∧ l.addr = obj.addr ∧
      t.nextFuncAddr = Function.update s.nextFuncAddr x (nextAfter s x (obj.addr + 4)) ∧
      t.addr = s.addr ∧ t.sec = s.sec ∧ t.cur = o ∧ Keyed t ∧
      ∀ a, Registered t a ↔ Registered s a := by
  obtain ⟨obj, v, hobj, hv, hstop, hst, haddr, rfl⟩ := translate_cases h
  have hk' : Keyed {s with cur := o} := ⟨hk.fresh, hk.addr, hk.sec⟩
  obtain rfl := updateNextFuncAddr_ok hk' hv
  let v := setNext {s with cur := o} x (nextAfter s x (obj.addr + 4))
  have hs : Same v (v.start p o obj) := .start p hobj
  obtain ⟨f, m, n, im, blk, heq⟩ := start_ok p v o obj
  exact ⟨obj, hobj, hstop, hst, haddr, hs.nextFuncAddr, hs.addr, hs.sec, congrArg State.cur heq,
    hs.keyed ⟨hk.fresh, hk.addr, hk.sec⟩, fun a => hs.registered⟩

/-! ### Switching to another function -/

/-- The function in progress has got its end, and the next one its range and its blocks. -/
def State.handOver (p : Program) (s : State) (obj : Obj) (l : Loop) (nextf : Nat) (next : Obj)
    (blocks moved : Block.Function) : State :=
  (((s.setObj s.cur {obj with stop := some l.addr}).finish p).setObj s.cur
    {obj with stop := some l.addr, blocks := blocks}).setObj nextf
    {next with stop := some l.stop, blocks := moved}

/-- What a switch comes down to. -/
theorem switch_cases {l l' : Loop} (h : s.switch p obj l = .ok (t, l')) :
    ∃ nextf next blocks moved, s.funcByAddr.get? l.addr = some nextf ∧
      (s.setObj s.cur {obj with stop := some l.addr}).objs nextf = some next ∧
      transferBBs (s.finish p).blk.func l.addr next.blocks = .ok (blocks, moved) ∧
      (s.handOver p obj l nextf next blocks moved).translate p obj.sec nextf = .ok (t, l') := by
  unfold State.switch at h
  cases hget : s.funcByAddr.get? l.addr with
  | none =>
    rw [hget] at h
    cases h
  | some nextf =>
    rw [hget] at h
    obtain ⟨next, hnext, h⟩ := bind_ok h
    obtain ⟨⟨blocks, moved⟩, hmv, h⟩ := bind_ok h
    exact ⟨nextf, next, blocks, moved, rfl, live_ok hnext, hmv, h⟩

section HandOver
variable {l : Loop} {nextf : Nat} {nextObj : Obj} {blocks moved : Block.Function}

theorem handOver_next : (s.handOver p obj l nextf nextObj blocks moved).objs nextf =
    some {nextObj with stop := some l.stop, blocks := moved} := Function.update_self ..

theorem handOver_cur (hne : nextf ≠ s.cur) :
    (s.handOver p obj l nextf nextObj blocks moved).objs s.cur =
      some {obj with stop := some l.addr, blocks := blocks} :=
  (Function.update_of_ne hne.symm ..).trans (Function.update_self ..)

theorem handOver_other (hn : o ≠ nextf) (hc : o ≠ s.cur) :
    (s.handOver p obj l nextf nextObj blocks moved).objs o = s.objs o :=
  (Function.update_of_ne hn ..).trans ((Function.update_of_ne hc ..).trans
    (Function.update_of_ne hc ..))

/-- The functions have the same names and LLVM functions as before, and are where they were. -/
theorem handOver_old (hcur : s.objs s.cur = some obj)
    (hnext : (s.setObj s.cur {obj with stop := some l.addr}).objs nextf = some nextObj) {obj' : Obj}
    (ho : (s.handOver p obj l nextf nextObj blocks moved).objs o = some obj') :
    ∃ old, s.objs o = some old ∧ obj'.name = old.name ∧ obj'.addr = old.addr ∧
      obj'.sec = old.sec ∧ obj'.f = old.f := by
  by_cases hn : o = nextf
  · subst hn
    obtain rfl := Option.some.inj (handOver_next.symm.trans ho)
    by_cases hc : o = s.cur
    · subst hc
      obtain rfl := Option.some.inj (hnext.symm.trans (Function.update_self ..))
      exact ⟨obj, hcur, rfl, rfl, rfl, rfl⟩
    · exact ⟨nextObj, (Function.update_of_ne hc ..).symm.trans hnext, rfl, rfl, rfl, rfl⟩
  · by_cases hc : o = s.cur
    · subst hc
      obtain rfl := Option.some.inj ((handOver_cur (Ne.symm hn)).symm.trans ho)
      exact ⟨obj, hcur, rfl, rfl, rfl, rfl⟩
    · exact ⟨obj', (handOver_other hn hc).symm.trans ho, rfl, rfl, rfl, rfl⟩

theorem handOver_alive {old : Obj} (ho : s.objs o = some old) :
    ∃ obj', (s.handOver p obj l nextf nextObj blocks moved).objs o = some obj' := by
  by_cases hn : o = nextf
  · subst hn
    exact ⟨_, handOver_next⟩
  · by_cases hc : o = s.cur
    · subst hc
      exact ⟨_, handOver_cur (Ne.symm hn)⟩
    · exact ⟨old, (handOver_other hn hc).trans ho⟩

theorem Same.handOver (hcur : s.objs s.cur = some obj)
    (hnext : (s.setObj s.cur {obj with stop := some l.addr}).objs nextf = some nextObj) :
    Same s (s.handOver p obj l nextf nextObj blocks moved) := by
  refine ⟨rfl, rfl, rfl, rfl, rfl, fun o obj' ho => ?_⟩
  obtain ⟨old, hold, -, haddr, hsec, -⟩ := handOver_old hcur hnext ho
  exact ⟨old, hold, haddr, hsec⟩

end HandOver

/-- The blocks from a switch on go to the next function, and that is started. -/
theorem switch_ok {l l' : Loop} (hk : Keyed s) (hcur : s.objs s.cur = some obj)
    (h : s.switch p obj l = .ok (t, l')) :
    ∃ nextf, s.funcByAddr.get? l.addr = some nextf ∧ l' = ⟨l.addr, l.stop, l.addr⟩ ∧
      t.nextFuncAddr =
        Function.update s.nextFuncAddr obj.sec (nextAfter s obj.sec (l.addr + 4)) ∧
      t.addr = s.addr ∧ t.sec = s.sec ∧ t.cur = nextf ∧ Keyed t ∧
      ∀ a, Registered t a ↔ Registered s a := by
  obtain ⟨nextf, next, blocks, moved, hget, hnext, -, h⟩ := switch_cases h
  have hs : Same s (s.handOver p obj l nextf next blocks moved) := .handOver hcur hnext
  obtain ⟨obj', hobj', hstop, hst, haddr, hn, ht, hsec, hcur', hk', hreg⟩ :=
    translate_ok (hs.keyed hk) h
  have hloc : obj'.addr = l.addr := (hs.keyed hk).addr _ _ obj' hget hobj'
  obtain rfl := Option.some.inj (handOver_next.symm.trans hobj')
  have hafter : nextAfter (s.handOver p obj l nextf next blocks moved) obj.sec (l.addr + 4) =
      nextAfter s obj.sec (l.addr + 4) := by
    unfold nextAfter
    rw [hs.nextFuncAddr, hs.addr, hs.funcByAddr]
  refine ⟨nextf, hget, ?_, ?_, ht.trans hs.addr, hsec.trans hs.sec, hcur', hk', fun a =>
    (hreg a).trans hs.registered⟩
  · obtain ⟨st, stop, addr⟩ := l'
    obtain rfl : l.stop = stop := Option.some.inj hstop
    rw [show st = l.addr from hst.trans hloc, show addr = l.addr from haddr.trans hloc]
  · rw [hn, hloc, hafter, hs.nextFuncAddr]

/-- Besides a call that is looked up, an instruction only makes code. -/
theorem translateInstr_ok (h : s.translateInstr p obj sec addr = .ok t) :
    ∃ u blk, t = {u with blk := blk, words := u.words ++ [⟨obj.sec, addr, blk.bld.first⟩]} ∧
      u.blk.translateInstr p.opts addr (sec.inst addr) = .ok blk ∧
      ((callee? (sec.inst addr).act = none ∧ u = s) ∨
        ∃ target cur, callee? (sec.inst addr).act = some target ∧
          p.sections[s.sec]? = some cur ∧ s.handleCall cur target = .ok u) := by
  obtain ⟨u, hu, h⟩ := bind_ok h
  obtain ⟨blk, hblk, h⟩ := bind_ok h
  refine ⟨u, blk, (Except.ok.inj h).symm, hblk, ?_⟩
  unfold State.call at hu
  split at hu
  next hc => exact .inl ⟨hc, (Except.ok.inj hu).symm⟩
  next target cur hc hcur => exact .inr ⟨target, cur, hc, hcur, hu⟩
  next => exact nomatch hu

theorem turn_ok {l l' : Loop} (h : s.turn p l = .ok (t, l')) :
    ∃ obj, s.objs s.cur = some obj ∧
      ((l.addr ≠ l.st ∧ l.addr = s.nextFuncAddr obj.sec ∧
          {s with addr := l.addr}.switch p obj l = .ok (t, l')) ∨
        ((l.addr ≠ l.st → l.addr ≠ s.nextFuncAddr obj.sec) ∧ l' = {l with addr := l.addr + 4} ∧
          ∃ sec, p.sections[obj.sec]? = some sec ∧
            {s with addr := l.addr}.translateInstr p obj sec l.addr = .ok t)) := by
  obtain ⟨obj, hobj, h⟩ := bind_ok h
  refine ⟨obj, live_ok hobj, ?_⟩
  dsimp only at h
  split at h
  next hsw => exact .inl ⟨hsw.1, hsw.2, h⟩
  next hsw =>
    refine .inr ⟨fun hne heq => hsw ⟨hne, heq⟩, ?_⟩
    cases hsec : p.sections[obj.sec]? with
    | none => rw [hsec] at h; exact nomatch h
    | some sec =>
      rw [hsec] at h
      obtain ⟨v, hv, h⟩ := bind_ok h
      obtain ⟨rfl, rfl⟩ := Prod.mk.inj (Except.ok.inj h)
      exact ⟨rfl, sec, rfl, hv⟩

/-! ### Steps -/

section Step
variable {c c' : Config}

/-- A turn of the loop, or its end. -/
theorem step_loops {l : Loop} (hl : c.loop = some l) (hs : c.step p = .ok c') :
    (l.addr < l.stop ∧ ∃ t l', c.s.turn p l = .ok (t, l') ∧ c' = ⟨t, c.next, c.todo, some l'⟩) ∨
      (l.stop ≤ l.addr ∧ ∃ t, c.s.leave p = .ok t ∧ c' = ⟨t, c.next, c.todo, none⟩) := by
  obtain ⟨s, next, todo, loop⟩ := c
  obtain rfl : loop = some l := hl
  unfold Config.step at hs
  dsimp only at hs
  split at hs
  next hlt =>
    obtain ⟨⟨t, l'⟩, ht, hs⟩ := bind_ok hs
    exact .inl ⟨hlt, t, l', ht, (Except.ok.inj hs).symm⟩
  next hge =>
    obtain ⟨t, ht, hs⟩ := bind_ok hs
    exact .inr ⟨Nat.not_lt.mp hge, t, ht, (Except.ok.inj hs).symm⟩

theorem step_turns {l : Loop} (hl : c.loop = some l) (hlt : l.addr < l.stop)
    (hs : c.step p = .ok c') :
    ∃ t l', c.s.turn p l = .ok (t, l') ∧ c' = ⟨t, c.next, c.todo, some l'⟩ := by
  rcases step_loops hl hs with ⟨-, h⟩ | ⟨hge, -⟩
  · exact h
  · exact absurd hlt (Nat.not_lt.mpr hge)

theorem step_enters {F : Func} {todo : List Func} (hl : c.loop = none) (htodo : c.todo = F :: todo)
    (hs : c.step p = .ok c') :
    ∃ t l, c.s.translateFunc p F = .ok (t, l) ∧ c' = ⟨t, c.next, todo, some l⟩ := by
  obtain ⟨s, next, todo', loop⟩ := c
  obtain rfl : loop = none := hl
  obtain rfl : todo' = F :: todo := htodo
  obtain ⟨⟨t, l⟩, ht, hs⟩ := bind_ok hs
  exact ⟨t, l, ht, (Except.ok.inj hs).symm⟩

/-- The next section, or the end. -/
theorem step_idle (hl : c.loop = none) (htodo : c.todo = []) (hs : c.step p = .ok c') :
    c' = c ∨ ∃ sec, p.sections[c.next]? = some sec ∧
      c' = ⟨{c.s with sec := c.next, blk := {c.s.blk with bld := {}}}, c.next + 1,
      sec.funcs, none⟩ := by
  obtain ⟨s, next, todo, loop⟩ := c
  obtain rfl : loop = none := hl
  obtain rfl : todo = [] := htodo
  unfold Config.step at hs
  dsimp only at hs ⊢
  cases hsec : p.sections[next]? with
  | none =>
    rw [hsec] at hs
    exact .inl (Except.ok.inj hs).symm
  | some sec =>
    rw [hsec] at hs
    exact .inr ⟨sec, rfl, (Except.ok.inj hs).symm⟩

end Step

end RiscvSbt.Context
