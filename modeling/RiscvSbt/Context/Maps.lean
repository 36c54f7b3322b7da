import RiscvSbt.Context.Registry

/-! What the maps of functions keep through every run, of any number of sections.

A function that is alive is the one its name finds, and lies where the map by address has
it. The module has one LLVM function for a name, so that functions share one only if they
share a name. -/
namespace RiscvSbt.Context
open Library State

structure Maps (s : State) : Prop where
  fresh : ∀ a o, s.funcByAddr.get? a = some o → o < s.nextObj
  ids : ∀ n o, s.func.get? n = some o → o < s.nextObj
  addr : ∀ a o obj, s.funcByAddr.get? a = some o → s.objs o = some obj → obj.addr = a
  name : ∀ o obj, s.objs o = some obj → s.func.get? obj.name = some o
  fn : ∀ n f, s.module.get? n = some f → f < s.nextFn
  inj : ∀ n m f, s.module.get? n = some f → s.module.get? m = some f → n = m

variable {p : Program} {s t u : State} {obj obj' : Obj} {sec : Section} {o a next addr : Nat}

namespace Maps

/-- Nothing but the objects changes, and these keep their names and addresses. -/
theorem of_eq (h : Maps s) (hfunc : t.func = s.func) (hby : t.funcByAddr = s.funcByAddr)
    (hmod : t.module = s.module) (hfn : t.nextFn = s.nextFn) (hnext : t.nextObj = s.nextObj)
    (hobjs : ∀ o obj, t.objs o = some obj →
      ∃ obj', s.objs o = some obj' ∧ obj.name = obj'.name ∧ obj.addr = obj'.addr) : Maps t := by
  refine ⟨fun a o ho => ?_, fun n o ho => ?_, fun a o obj ho hobj => ?_, fun o obj hobj => ?_,
    fun n f hf => ?_, fun n m f hn hm => ?_⟩
  · rw [hby] at ho
    rw [hnext]
    exact h.fresh a o ho
  · rw [hfunc] at ho
    rw [hnext]
    exact h.ids n o ho
  · rw [hby] at ho
    obtain ⟨obj', hobj', -, ha⟩ := hobjs o obj hobj
    rw [ha]
    exact h.addr a o obj' ho hobj'
  · obtain ⟨obj', hobj', hn, -⟩ := hobjs o obj hobj
    rw [hfunc, hn]
    exact h.name o obj' hobj'
  · rw [hmod] at hf
    rw [hfn]
    exact h.fn n f hf
  · rw [hmod] at hn hm
    exact h.inj n m f hn hm

theorem setObj (h : Maps s) (ho : s.objs o = some obj) (obj' : Obj) (hn : obj'.name = obj.name)
    (ha : obj'.addr = obj.addr) : Maps (s.setObj o obj') := by
  refine h.of_eq rfl rfl rfl rfl rfl fun x obj'' hx => ?_
  by_cases hxo : x = o
  · subst hxo
    obtain rfl : obj' = obj'' := by simpa [State.setObj] using hx
    exact ⟨obj, ho, hn, ha⟩
  · exact ⟨obj'', by simpa [State.setObj, hxo] using hx, rfl, rfl⟩

/-- A name gets a new LLVM function. -/
theorem enter (h : Maps s) (name : String) :
    Maps {s with module := s.module.upsert name s.nextFn, nextFn := s.nextFn + 1} := by
  refine ⟨h.fresh, h.ids, h.addr, h.name, fun n f hf => ?_, fun n m f hf hf' => ?_⟩
  · rw [Map.get?_upsert] at hf
    show f < s.nextFn + 1
    split at hf
    · rw [← Option.some.inj hf]
      exact Nat.lt_succ_self _
    · exact Nat.lt_succ_of_lt (h.fn n f hf)
  · have hne : ∀ k, s.module.get? k = some s.nextFn → False := fun k hk => by
      exact absurd (h.fn k _ hk) (Nat.lt_irrefl _)
    rw [Map.get?_upsert] at hf hf'
    split at hf
    next heq =>
      obtain rfl := Option.some.inj hf
      split at hf'
      next heq' => rw [heq, heq']
      next => exact (hne m hf').elim
    next =>
      split at hf'
      next =>
        obtain rfl := Option.some.inj hf'
        exact (hne n hf).elim
      next => exact h.inj n m f hf hf'

theorem create (h : Maps s) (name : String) : Maps (s.create name).2 := by
  unfold State.create
  cases hn : s.module.get? name with
  | some f => exact h
  | none => exact h.enter name

theorem createNew (h : Maps s) (name : String) : Maps (s.createNew name).2 := by
  unfold State.createNew
  split
  next => exact h.enter name
  next =>
    exact ⟨h.fresh, h.ids, h.addr, h.name, fun n f hf => Nat.lt_succ_of_lt (h.fn n f hf), h.inj⟩

end Maps

theorem create_get? (s : State) (name : String) :
    (s.create name).2.module.get? name = some (s.create name).1 := by
  unfold State.create
  cases hn : s.module.get? name with
  | some f => exact hn
  | none => exact Map.get?_upsert_self _ _ _

theorem create_module {name n : String} {f : Block.FnId} (h : s.module.get? n = some f) :
    (s.create name).2.module.get? n = some f := by
  unfold State.create
  cases hn : s.module.get? name with
  | some f' => exact h
  | none =>
    refine (Map.get?_upsert_of_ne ?_).trans h
    rintro rfl
    rw [hn] at h
    exact nomatch h

/-- What is alive beside the new function was alive before, under another name. -/
theorem addFunc_alive
    (h : ((s.newFunction obj).addFunc s.nextObj obj).objs o = some obj') :
    (o = s.nextObj ∧ obj' = obj) ∨
      (o ≠ s.nextObj ∧ s.objs o = some obj' ∧ s.func.get? obj.name ≠ some o) := by
  rcases addFunc_objs h with hor | ⟨hne, hobj⟩
  · exact .inl hor
  · refine .inr ⟨hne, hobj, fun hget => ?_⟩
    have h : destroy (s.newFunction obj).objs (s.func.get? obj.name) o = some obj' := h
    rw [hget] at h
    simp [State.destroy] at h

/-- The new function is alive. -/
theorem addFunc_self (hids : ∀ n o, s.func.get? n = some o → o < s.nextObj) (obj : Obj) :
    ((s.newFunction obj).addFunc s.nextObj obj).objs s.nextObj = some obj := by
  show destroy (Function.update s.objs s.nextObj (some obj)) (s.func.get? obj.name) s.nextObj = _
  cases hget : s.func.get? obj.name with
  | none => exact Function.update_self ..
  | some old =>
    show Function.update (Function.update s.objs s.nextObj (some obj)) old none s.nextObj = _
    rw [Function.update_of_ne (Nat.ne_of_gt (hids _ old hget)), Function.update_self]

theorem Maps.addFunc (h : Maps s) (obj : Obj) :
    Maps ((s.newFunction obj).addFunc s.nextObj obj) := by
  have hget : ∀ a o, ((s.newFunction obj).addFunc s.nextObj obj).funcByAddr.get? a = some o →
      (a = obj.addr ∧ o = s.nextObj) ∨ (s.funcByAddr.get? a = some o) := by
    intro a o ho
    have ho' : (s.funcByAddr.upsert obj.addr s.nextObj).get? a = some o := ho
    rw [Map.get?_upsert] at ho'
    split at ho'
    next heq => exact .inl ⟨heq, (Option.some.inj ho').symm⟩
    next => exact .inr ho'
  refine ⟨fun a o ho => ?_, fun n o ho => ?_, fun a o obj' ho hobj => ?_, fun o obj' hobj => ?_,
    h.fn, h.inj⟩
  · show o < s.nextObj + 1
    rcases hget a o ho with ⟨-, rfl⟩ | ho
    · exact Nat.lt_succ_self _
    · exact Nat.lt_succ_of_lt (h.fresh a o ho)
  · show o < s.nextObj + 1
    have ho' : (s.func.upsert obj.name s.nextObj).get? n = some o := ho
    rw [Map.get?_upsert] at ho'
    split at ho'
    · rw [← Option.some.inj ho']
      exact Nat.lt_succ_self _
    · exact Nat.lt_succ_of_lt (h.ids n o ho')
  · rcases hget a o ho with ⟨rfl, rfl⟩ | ho
    · rcases addFunc_alive hobj with ⟨-, rfl⟩ | ⟨hne, -⟩
      · rfl
      · exact absurd rfl hne
    · rcases addFunc_alive hobj with ⟨rfl, -⟩ | ⟨-, hobj, -⟩
      · exact absurd (h.fresh a _ ho) (lt_irrefl _)
      · exact h.addr a o obj' ho hobj
  · show (s.func.upsert obj.name s.nextObj).get? obj'.name = some o
    rcases addFunc_alive hobj with ⟨rfl, rfl⟩ | ⟨-, hobj, hne⟩
    · exact Map.get?_upsert_self _ _ _
    · have hname := h.name o obj' hobj
      rw [Map.get?_upsert_of_ne]
      · exact hname
      · exact fun heq => hne (heq ▸ hname)

/-- Looking a function up calls nothing. -/
theorem getByAddr_calls (h : s.getByAddr sec a = .ok (o, t)) :
    t.calls = s.calls := by
  cases hget : s.funcByAddr.get? a with
  | some o' =>
    obtain ⟨-, rfl⟩ := getByAddr_known h hget
    rfl
  | none =>
    obtain ⟨-, N, rfl⟩ := getByAddr_add h hget
    obtain ⟨m, n, heq⟩ := added_eq s sec a
    rw [heq]
    rfl

namespace Maps

theorem updateNextFuncAddr {x : Nat} (h : Maps s) (hu : s.updateNextFuncAddr x next = .ok t) :
    Maps t := by
  obtain ⟨N, rfl⟩ := updateNextFuncAddr_eq hu
  exact ⟨h.fresh, h.ids, h.addr, h.name, h.fn, h.inj⟩

/-- **Looking a function up by address**, or making it up under its name. -/
theorem getByAddr (h : Maps s) (hg : s.getByAddr sec addr = .ok (o, t)) :
    Maps t ∧ t.funcByAddr.get? addr = some o ∧
      (∀ n f, s.module.get? n = some f → t.module.get? n = some f) ∧
      ((s.funcByAddr.get? addr = some o ∧ t = s) ∨
        (s.funcByAddr.get? addr = none ∧
          ∃ obj f, t.objs o = some obj ∧ obj.name = nameAt sec addr ∧ obj.addr = addr ∧
            obj.f = some f ∧ t.module.get? (nameAt sec addr) = some f)) := by
  cases hget : s.funcByAddr.get? addr with
  | some o' =>
    obtain ⟨rfl, rfl⟩ := getByAddr_known hg hget
    exact ⟨h, hget, fun _ _ hf => hf, .inl ⟨rfl, rfl⟩⟩
  | none =>
    obtain ⟨rfl, N, rfl⟩ := getByAddr_add hg hget
    have hm := (h.create (nameAt sec addr)).addFunc (s.madeUp sec addr)
    have hself := addFunc_self (h.create (nameAt sec addr)).ids (s.madeUp sec addr)
    have hf := create_get? s (nameAt sec addr)
    have hmod : ∀ n f, s.module.get? n = some f →
        (s.create (nameAt sec addr)).2.module.get? n = some f := fun n f hf => create_module hf
    obtain ⟨f, m, n, hc⟩ := create_ok s (nameAt sec addr)
    unfold State.added
    rw [hc] at hm hself hf hmod ⊢
    exact ⟨⟨hm.fresh, hm.ids, hm.addr, hm.name, hm.fn, hm.inj⟩, Map.get?_upsert_self _ _ _, hmod,
      .inr ⟨rfl, s.madeUp sec addr, f, hself, rfl, rfl, by rw [State.madeUp, hc], hf⟩⟩

theorem handleCall (h : Maps s) (hc : s.handleCall sec a = .ok t) : Maps t := by
  obtain ⟨o, u, f, hu, -, rfl⟩ := handleCall_ok hc
  have hm := (h.getByAddr hu).1
  exact ⟨hm.fresh, hm.ids, hm.addr, hm.name, hm.fn, hm.inj⟩

/-! ### Runs -/

theorem finish (h : Maps s) (p : Program) : Maps (s.finish p) :=
  h.of_eq rfl rfl rfl rfl rfl fun _ obj ho => ⟨obj, ho, rfl, rfl⟩

theorem start (h : Maps s) (p : Program) (ho : s.objs o = some obj) : Maps (s.start p o obj) := by
  have hset : ∀ {u : State} (f : Block.FnId), Maps u → u.objs = s.objs →
      Maps (u.setObj o {obj with f := some f}) := fun {u} f hu heq =>
    hu.setObj (show u.objs o = some obj by rw [heq, ho]) _ rfl rfl
  unfold State.start
  split
  · have hm := hset (s.createNew obj.name).1 (h.createNew obj.name) rfl
    exact ⟨hm.fresh, hm.ids, hm.addr, hm.name, hm.fn, hm.inj⟩
  · have hobjs : (s.create obj.name).2.objs = s.objs := by
      obtain ⟨f, m, n, hc⟩ := create_ok s obj.name
      rw [hc]
    have hm := hset (s.create obj.name).1 (h.create obj.name) hobjs
    exact ⟨hm.fresh, hm.ids, hm.addr, hm.name, hm.fn, hm.inj⟩

theorem translate (h : Maps s) {x : Nat} {l : Loop} (ht : s.translate p x o = .ok (t, l)) :
    Maps t := by
  obtain ⟨obj, v, hobj, hv, -, -, -, rfl⟩ := translate_cases ht
  have hcur : Maps {s with cur := o} := ⟨h.fresh, h.ids, h.addr, h.name, h.fn, h.inj⟩
  have hmv := hcur.updateNextFuncAddr hv
  obtain ⟨N, rfl⟩ := updateNextFuncAddr_eq hv
  exact hmv.start p hobj

theorem switch (h : Maps s) {l l' : Loop} (hcur : s.objs s.cur = some obj)
    (hsw : s.switch p obj l = .ok (t, l')) : Maps t := by
  obtain ⟨nextf, next, blocks, moved, -, hnext, -, hsw⟩ := switch_cases hsw
  have hm : Maps (s.handOver p obj l nextf next blocks moved) :=
    h.of_eq rfl rfl rfl rfl rfl fun o obj' ho => by
      obtain ⟨old, hold, hname, haddr, -⟩ := handOver_old hcur hnext ho
      exact ⟨old, hold, hname, haddr⟩
  exact hm.translate hsw

theorem translateInstr (h : Maps s) (ht : s.translateInstr p obj sec addr = .ok t) : Maps t := by
  obtain ⟨u, blk, rfl, -, hor⟩ := translateInstr_ok ht
  have hu : Maps u := by
    rcases hor with ⟨-, rfl⟩ | ⟨target, cur, -, -, hc⟩
    · exact h
    · exact h.handleCall hc
  exact ⟨hu.fresh, hu.ids, hu.addr, hu.name, hu.fn, hu.inj⟩

theorem turn (h : Maps s) {l l' : Loop} (ht : s.turn p l = .ok (t, l')) : Maps t := by
  have ha : Maps {s with addr := l.addr} := ⟨h.fresh, h.ids, h.addr, h.name, h.fn, h.inj⟩
  obtain ⟨obj, hobj, ⟨-, -, hsw⟩ | ⟨-, -, sec, -, hi⟩⟩ := turn_ok ht
  · exact ha.switch hobj hsw
  · exact ha.translateInstr hi

theorem leave (h : Maps s) (ht : s.leave p = .ok t) : Maps t := by
  obtain ⟨obj, hobj, ht⟩ := bind_ok ht
  obtain rfl := Except.ok.inj ht
  exact (h.finish p).setObj (live_ok hobj) _ rfl rfl

theorem step {c c' : Config} (h : Maps c.s) (hs : c.step p = .ok c') : Maps c'.s := by
  cases hl : c.loop with
  | some l =>
    obtain ⟨-, t, l', ht, rfl⟩ | ⟨-, t, ht, rfl⟩ := step_loops hl hs
    · exact h.turn ht
    · exact h.leave ht
  | none =>
    cases htodo : c.todo with
    | nil =>
      obtain rfl | ⟨sec, -, rfl⟩ := step_idle hl htodo hs
      · exact h
      · exact ⟨h.fresh, h.ids, h.addr, h.name, h.fn, h.inj⟩
    | cons func todo =>
      obtain ⟨t, l, ht, rfl⟩ := step_enters hl htodo hs
      exact (h.addFunc _).translate ht

end Maps

theorem run_maps {good : Config → Prop} {c₀ c : Config} (h : Run (Config.step p) good c₀ c)
    (h₀ : Maps c₀.s) : Maps c.s := by
  induction h with
  | start => exact h₀
  | step _ _ hs ih => exact ih.step hs

/-- **The maps of every run.** -/
theorem Config.Reach.maps {good : Config → Prop} {pending : Map Nat Block.PendingReloc}
    {sections : String → List Block.Constant} {c : Config}
    (h : Config.Reach p good pending sections c) : Maps c.s :=
  run_maps h ⟨fun _ _ h => (nomatch h), fun _ _ h => (nomatch h), fun _ _ _ h => (nomatch h),
    fun _ _ h => (nomatch h), fun _ _ h => (nomatch h), fun _ _ _ h => (nomatch h)⟩

end RiscvSbt.Context
