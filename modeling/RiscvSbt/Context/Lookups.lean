import RiscvSbt.Context.Bodies

/-! What the operations do to what is looked up.

Functions are entered in the maps by calls and by symbols. The translation of a function only
gives its object an LLVM function, and cuts ranges. -/
namespace RiscvSbt.Context
open Library Block State

/-- Functions are looked up as before, and the module keeps those that it has. -/
structure Steady (s t : State) : Prop where
  funcByAddr : t.funcByAddr = s.funcByAddr
  func : t.func = s.func
  calls : t.calls = s.calls
  module : ∀ n f, s.module.get? n = some f → t.module.get? n = some f

/-- The objects are those from before, and one of them has an LLVM function now. -/
structure Given (s t : State) (o : Nat) : Prop where
  objs : ∀ o' obj', t.objs o' = some obj' → ∃ obj, s.objs o' = some obj ∧
    obj'.name = obj.name ∧ obj'.addr = obj.addr ∧ obj'.sec = obj.sec ∧
    obj'.f = if o' = o then some (s.fnOf obj.name) else obj.f
  kept : ∀ o' obj, s.objs o' = some obj → ∃ obj', t.objs o' = some obj'

variable {p : Program} {s t : State} {obj : Obj} {o : Nat} {l l' : Loop} {sec : Section}
  {a : Nat} {f : FnId}

theorem createNew_module {name n : String} (h : s.module.get? n = some f) :
    (s.createNew name).2.module.get? n = some f := by
  unfold State.createNew
  dsimp only
  split
  next hnone =>
    refine (Map.get?_upsert_of_ne ?_).trans h
    rintro rfl
    rw [hnone] at h
    cases h
  next => exact h

theorem start_steady (p : Program) (s : State) (o : Nat) (obj : Obj) :
    Steady s (s.start p o obj) := by
  unfold State.start
  split
  · exact ⟨rfl, rfl, rfl, fun n f h => createNew_module h⟩
  · obtain ⟨f, m, n, hc⟩ := create_ok s obj.name
    have hm : ∀ n f, s.module.get? n = some f → (s.create obj.name).2.module.get? n = some f :=
      fun n f h => create_module h
    rw [hc] at hm ⊢
    exact ⟨rfl, rfl, rfl, hm⟩

theorem translate_steady {x : Nat} (h : s.translate p x o = .ok (t, l)) :
    Steady s t ∧ Given s t o ∧ ∃ obj, s.objs o = some obj ∧
      t.objs o = some {obj with f := some (s.fnOf obj.name)} := by
  obtain ⟨obj, v, hobj, hv, -, -, -, rfl⟩ := translate_cases h
  obtain ⟨N, rfl⟩ := updateNextFuncAddr_eq hv
  let v : State := {s with cur := o, nextFuncAddr := N}
  have hfn : v.fnOf obj.name = s.fnOf obj.name := fnOf_congr rfl rfl
  obtain ⟨-, -, -, -, hobjs, -⟩ := start_rest p v o obj
  rw [hfn] at hobjs
  have hst := start_steady p v o obj
  have hself : (v.start p o obj).objs o = some {obj with f := some (s.fnOf obj.name)} := by
    rw [hobjs]
    exact Function.update_self ..
  refine ⟨⟨hst.funcByAddr, hst.func, hst.calls, hst.module⟩, ⟨fun o' obj' ho' => ?_,
    fun o' old hold => ?_⟩, obj, hobj, hself⟩
  · by_cases ho : o' = o
    · subst ho
      obtain rfl := Option.some.inj (hself.symm.trans ho')
      exact ⟨obj, hobj, rfl, rfl, rfl, by rw [if_pos rfl]⟩
    · rw [hobjs, Function.update_of_ne ho] at ho'
      exact ⟨obj', ho', rfl, rfl, rfl, by rw [if_neg ho]⟩
  · by_cases ho : o' = o
    · subst ho
      exact ⟨_, hself⟩
    · refine ⟨old, ?_⟩
      rw [hobjs, Function.update_of_ne ho]
      exact hold

theorem switch_steady (hcur : s.objs s.cur = some obj) (h : s.switch p obj l = .ok (t, l')) :
    Steady s t ∧ ∃ nextf next, s.funcByAddr.get? l.addr = some nextf ∧
      s.objs nextf = some next ∧ Given s t nextf := by
  obtain ⟨nextf, next, blocks, moved, hget, hnext, -, h⟩ := switch_cases h
  obtain ⟨hst, hgiven, -⟩ := translate_steady h
  have hself : (s.handOver p obj l nextf next blocks moved).objs nextf = _ := handOver_next
  obtain ⟨old, hold, -⟩ := handOver_old hcur hnext hself
  refine ⟨⟨hst.funcByAddr, hst.func, hst.calls, hst.module⟩, nextf, old, hget, hold,
    fun o' obj' ho' => ?_, fun o' old ho' => ?_⟩
  · obtain ⟨mid, hmid, hn, ha, hx, hf⟩ := hgiven.objs o' obj' ho'
    -- Up to there the objects change their ranges and blocks only.
    obtain ⟨old, ho, hn', ha', hx', hf'⟩ := handOver_old hcur hnext hmid
    refine ⟨old, ho, hn.trans hn', ha.trans ha', hx.trans hx', ?_⟩
    rw [hf, hn', hf']
    exact if_congr Iff.rfl (congrArg some (fnOf_congr rfl rfl)) rfl
  · obtain ⟨mid, hmid⟩ := handOver_alive ho'
    exact hgiven.kept o' mid hmid

theorem leave_steady (h : s.leave p = .ok t) : Steady s t ∧
    (∀ o' obj', t.objs o' = some obj' → ∃ obj, s.objs o' = some obj ∧ obj'.name = obj.name ∧
      obj'.addr = obj.addr ∧ obj'.sec = obj.sec ∧ obj'.f = obj.f) ∧
    ∀ o' obj, s.objs o' = some obj → ∃ obj', t.objs o' = some obj' := by
  obtain ⟨obj, hobj, h⟩ := bind_ok h
  obtain rfl := Except.ok.inj h
  refine ⟨⟨rfl, rfl, rfl, fun _ _ h => h⟩, fun o' obj' ho' => ?_, fun o' old ho' => ?_⟩
  · have ho' : Function.update s.objs s.cur _ o' = some obj' := ho'
    by_cases hc : o' = s.cur
    · subst hc
      rw [Function.update_self] at ho'
      obtain rfl := Option.some.inj ho'
      exact ⟨obj, live_ok hobj, rfl, rfl, rfl, rfl⟩
    · rw [Function.update_of_ne hc] at ho'
      exact ⟨obj', ho', rfl, rfl, rfl, rfl⟩
  · show ∃ obj', Function.update s.objs s.cur _ o' = some obj'
    by_cases hc : o' = s.cur
    · exact ⟨_, by rw [hc, Function.update_self]⟩
    · exact ⟨old, by rw [Function.update_of_ne hc]; exact ho'⟩

/-! ### New functions -/

theorem getByAddr_new (h : s.getByAddr sec a = .ok (o, t)) (hget : s.funcByAddr.get? a = none) :
    o = s.nextObj ∧ t.funcByAddr = s.funcByAddr.upsert a s.nextObj ∧
      t.func = s.func.upsert (nameAt sec a) s.nextObj ∧ t.calls = s.calls ∧
      t.module = (s.create (nameAt sec a)).2.module ∧
      t.objs = destroy (Function.update s.objs s.nextObj (some (s.madeUp sec a)))
        (s.func.get? (nameAt sec a)) := by
  obtain ⟨rfl, N, rfl⟩ := getByAddr_add h hget
  obtain ⟨f, m, n, hc⟩ := create_ok s (nameAt sec a)
  unfold State.added State.madeUp
  rw [hc]
  exact ⟨rfl, rfl, rfl, rfl, rfl, rfl⟩

/-- What is alive behind a lookup. -/
theorem getByAddr_objs (h : s.getByAddr sec a = .ok (o, t)) (hget : s.funcByAddr.get? a = none)
    {o' : Nat} {obj' : Obj} (ho : t.objs o' = some obj') :
    (o' = s.nextObj ∧ obj' = s.madeUp sec a) ∨ (o' ≠ s.nextObj ∧ s.objs o' = some obj') := by
  obtain ⟨-, -, -, -, -, hobjs⟩ := getByAddr_new h hget
  rw [hobjs] at ho
  have ho : ((s.newFunction (s.madeUp sec a)).addFunc s.nextObj (s.madeUp sec a)).objs o'
      = some obj' := ho
  exact addFunc_objs ho

end RiscvSbt.Context
