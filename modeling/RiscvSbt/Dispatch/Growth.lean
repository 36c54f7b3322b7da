import RiscvSbt.Dispatch.Machine

/-! How the maps of functions grow.

A step of the translation and an import both add functions, and lose none. What an operation adds
is said once (`Grows`); operations that follow each other add what either of them does. -/
namespace RiscvSbt.Context
open Library State
open Block (FnId)

/-- Names stay known, and the module has new functions only under names that are known. Objects stay
what they are, but for those that are new. -/
structure Grows (new : Obj → Prop) (s t : State) : Prop where
  func : ∀ n, (s.func.get? n).isSome → (t.func.get? n).isSome
  fn : ∀ n f, s.module.get? n = some f → t.module.get? n = some f
  module : ∀ n, (t.module.get? n).isSome → (s.module.get? n).isSome ∨ (t.func.get? n).isSome
  objs : ∀ o obj', t.objs o = some obj' → new obj' ∨
    ∃ obj, s.objs o = some obj ∧ obj'.name = obj.name ∧ obj'.addr = obj.addr

/-- Every function of the module is known by its name. -/
def Declared (s : State) : Prop := ∀ n, (s.module.get? n).isSome → (s.func.get? n).isSome

/-- The map by name finds functions of the name. -/
def Keys (s : State) : Prop :=
  ∀ n o obj, s.func.get? n = some o → s.objs o = some obj → obj.name = n

/-- Every function that is known has an LLVM function. -/
def Born (s : State) : Prop := ∀ o obj, s.objs o = some obj → obj.f.isSome

variable {p : Program} {s t u : State} {obj : Obj} {o : Nat} {l l' : Loop} {sec : Section} {a : Nat}
  {new : Obj → Prop} {c c' : Config} {name n : String}

namespace Grows

theorem refl (new : Obj → Prop) (s : State) : Grows new s s :=
  ⟨fun _ h => h, fun _ _ h => h, fun _ h => .inl h, fun _ obj h => .inr ⟨obj, h, rfl, rfl⟩⟩

theorem trans (h : Grows new s t) (h' : Grows new t u)
    (hnew : ∀ obj obj', new obj → obj'.name = obj.name → obj'.addr = obj.addr → new obj') :
    Grows new s u := by
  refine ⟨fun n hn => h'.func n (h.func n hn), fun n f hf => h'.fn n f (h.fn n f hf),
    fun n hn => ?_,
    fun o obj'' ho => ?_⟩
  · rcases h'.module n hn with ht | hu
    · exact (h.module n ht).imp_right (h'.func n)
    · exact .inr hu
  · rcases h'.objs o obj'' ho with hn | ⟨obj', ho', hname, haddr⟩
    · exact .inl hn
    · rcases h.objs o obj' ho' with hn | ⟨obj, ho, hname', haddr'⟩
      · exact .inl (hnew obj' obj'' hn hname haddr)
      · exact .inr ⟨obj, ho, hname.trans hname', haddr.trans haddr'⟩

theorem declared (h : Grows new s t) (hs : Declared s) : Declared t := fun n hn =>
  (h.module n hn).elim (fun hs' => h.func n (hs n hs')) id

/-- Maps and objects are the same. -/
theorem of_eq (hfunc : t.func = s.func) (hmod : t.module = s.module)
    (hobjs : ∀ o obj', t.objs o = some obj' →
      ∃ obj, s.objs o = some obj ∧ obj'.name = obj.name ∧ obj'.addr = obj.addr) : Grows new s t :=
  ⟨fun n h => by rwa [hfunc], fun n f h => by rwa [hmod], fun n h => .inl (by rwa [hmod] at h),
    fun o obj' h => .inr (hobjs o obj' h)⟩

end Grows

/-! ### New LLVM functions -/

theorem create_module_iff : ((s.create name).2.module.get? n).isSome ↔
    (s.module.get? n).isSome ∨ n = name := by
  unfold State.create
  cases hget : s.module.get? name with
  | some f =>
    refine ⟨.inl, fun h => h.elim id ?_⟩
    rintro rfl
    exact Option.isSome_of_eq_some hget
  | none =>
    dsimp only
    rw [Map.get?_upsert]
    split
    next h => exact ⟨fun _ => .inr h, fun _ => rfl⟩
    next h => exact ⟨.inl, fun h' => h'.resolve_right h⟩

theorem createNew_module_imp (h : ((s.createNew name).2.module.get? n).isSome) :
    (s.module.get? n).isSome ∨ n = name := by
  unfold State.createNew at h
  dsimp only at h
  split at h
  · rw [Map.get?_upsert] at h
    split at h
    next hn => exact .inr hn
    next => exact .inl h
  · exact .inl h

theorem start_module_imp (h : ((s.start p o obj).module.get? n).isSome) :
    (s.module.get? n).isSome ∨ n = obj.name := by
  unfold State.start at h
  split at h
  next => exact createNew_module_imp h
  next => exact create_module_iff.mp h

/-! ### Operations -/

/-- A function that is translated gets an LLVM function under its name. -/
theorem translate_grows {x : Nat} (hm : Maps s) (h : s.translate p x o = .ok (t, l)) :
    Grows new s t := by
  obtain ⟨hsteady, hgiven, obj, hobj, -⟩ := translate_steady h
  refine ⟨fun n hn => by rwa [hsteady.func], hsteady.module, fun n hn => ?_,
    fun o' obj' ho' => .inr ?_⟩
  · obtain ⟨obj', v, hobj', hv, -, -, -, rfl⟩ := translate_cases h
    obtain ⟨N, rfl⟩ := updateNextFuncAddr_eq hv
    refine (start_module_imp hn).imp id ?_
    rintro rfl
    rw [hsteady.func]
    exact Option.isSome_of_eq_some (hm.name o obj' hobj')
  · obtain ⟨obj', ho, hname, haddr, -⟩ := hgiven.objs o' obj' ho'
    exact ⟨obj', ho, hname, haddr⟩

theorem switch_grows (hm : Maps s) (hcur : s.objs s.cur = some obj)
    (h : s.switch p obj l = .ok (t, l')) :
    Grows new s t := by
  obtain ⟨nextf, next, blocks, moved, -, hnext, -, h⟩ := switch_cases h
  have hold : ∀ o obj', (s.handOver p obj l nextf next blocks moved).objs o = some obj' →
      ∃ old, s.objs o = some old ∧ obj'.name = old.name ∧ obj'.addr = old.addr :=
        fun o obj' ho => by
    obtain ⟨old, hold, hname, haddr, -⟩ := handOver_old hcur hnext ho
    exact ⟨old, hold, hname, haddr⟩
  have hmid : Grows (fun _ => False) s (s.handOver p obj l nextf next blocks moved) :=
    .of_eq rfl rfl hold
  have hm' : Maps (s.handOver p obj l nextf next blocks moved) := hm.of_eq rfl rfl rfl rfl rfl hold
  have h' := hmid.trans (translate_grows hm' h) fun _ _ hf => hf.elim
  exact ⟨h'.func, h'.fn, h'.module, fun o obj ho => .inr ((h'.objs o obj ho).resolve_left id)⟩

theorem leave_grows (h : s.leave p = .ok t) : Grows new s t := by
  obtain ⟨hsteady, hobjs, -⟩ := leave_steady h
  obtain ⟨obj, -, h⟩ := bind_ok h
  obtain rfl := Except.ok.inj h
  refine .of_eq hsteady.func rfl fun o obj' ho => ?_
  obtain ⟨obj, ho, hname, haddr, -⟩ := hobjs o obj' ho
  exact ⟨obj, ho, hname, haddr⟩

/-- A function is entered. -/
theorem addFunc_grows (hnew : new obj) :
    Grows new s ((s.newFunction obj).addFunc s.nextObj obj) := by
  refine ⟨fun n hn => ?_, fun _ _ h => h, fun _ h => .inl h, fun o obj' ho => ?_⟩
  · show ((s.func.upsert obj.name s.nextObj).get? n).isSome
    rw [Map.get?_upsert]
    split
    next => rfl
    next => exact hn
  · obtain ⟨-, rfl⟩ | ⟨-, hold⟩ := addFunc_objs ho
    · exact .inl hnew
    · exact .inr ⟨obj', hold, rfl, rfl⟩

/-- The object has the name that its LLVM function is created under. -/
theorem create_grows (hnew : new obj) (hname : obj.name = name) :
    Grows new s (((s.create name).2.newFunction obj).addFunc s.nextObj obj) := by
  have hfunc : (s.create name).2.func = s.func ∧ (s.create name).2.objs = s.objs ∧
      (s.create name).2.nextObj = s.nextObj := by
    obtain ⟨f, m, n, hc⟩ := create_ok s name
    rw [hc]
    exact ⟨rfl, rfl, rfl⟩
  obtain ⟨hfunc, hobjs, hnext⟩ := hfunc
  rw [← hnext]
  have h := addFunc_grows (s := (s.create name).2) hnew
  refine ⟨fun n hn => h.func n (hfunc ▸ hn), fun n f hf => h.fn n f (create_module hf),
    fun n hn => ?_,
    fun o obj' ho => hobjs ▸ h.objs o obj' ho⟩
  refine (create_module_iff.mp hn).imp id ?_
  rintro rfl
  show (((s.create n).2.func.upsert obj.name _).get? n).isSome
  rw [hname, Map.get?_upsert_self]
  rfl

theorem getByAddr_grows (h : s.getByAddr sec a = .ok (o, t))
    (hnew : ∀ obj : Obj, obj.addr = a → new obj) : Grows new s t := by
  cases hget : s.funcByAddr.get? a with
  | some o' =>
    obtain ⟨-, rfl⟩ := getByAddr_known h hget
    exact .refl new t
  | none =>
    obtain ⟨-, N, rfl⟩ := getByAddr_add h hget
    have h : Grows new s (s.added sec a) := create_grows (hnew (s.madeUp sec a) rfl) rfl
    exact ⟨h.func, h.fn, h.module, h.objs⟩

/-- A function that is made known by its address gets an LLVM function. -/
theorem getByAddr_born (hb : Born s) (h : s.getByAddr sec a = .ok (o, t)) : Born t := by
  cases hget : s.funcByAddr.get? a with
  | some o' =>
    obtain ⟨-, rfl⟩ := getByAddr_known h hget
    exact hb
  | none =>
    intro o' obj' ho'
    obtain ⟨-, rfl⟩ | ⟨-, hold⟩ := getByAddr_objs h hget ho'
    · rfl
    · exact hb o' obj' hold

/-! ### A new name -/

section New
variable (hobj : obj.name = name) (hfn : obj.f = some (s.create name).1)

/-- What entering a function under a new name does. -/
theorem create_aside (hb : obj.blocks = {f := 0}) :
    Aside s (((s.create name).2.newFunction obj).addFunc s.nextObj obj) := by
  obtain ⟨m, n, hc, hle, -⟩ := create_spec s name
  rw [hc]
  refine ⟨rfl, rfl, rfl, rfl, rfl, hle, Nat.le_succ _, fun o obj' ho => ?_⟩
  let v : State := {s with module := m, nextFn := n}
  have ho : ((v.newFunction obj).addFunc v.nextObj obj).objs o = some obj' := ho
  obtain ⟨heq, rfl⟩ | ⟨-, hold⟩ := addFunc_objs ho
  · exact .inr ⟨heq, hb⟩
  · exact .inl hold

include hobj hfn in
/-- A function that fits is entered with its LLVM function. -/
theorem create_identified (h : Identified s) (hm : Maps s) (hfits : Fits s obj.place)
    (hstop : ¬ Ranged s obj.place) :
    Identified (((s.create name).2.newFunction obj).addFunc s.nextObj obj) ∧
      Grown s (((s.create name).2.newFunction obj).addFunc s.nextObj obj) := by
  obtain ⟨f, m, n, hc⟩ := create_ok s name
  let v : State := {s with module := m, nextFn := n}
  have hv : (s.create name).2 = v := congrArg Prod.snd hc
  have hident : Identified v := ⟨h.byAddr, h.byName, fun o obj f ho hf => by
    rw [← hv]
    exact create_module (h.fn o obj f ho hf)⟩
  rw [hv]
  refine hident.add obj (hv ▸ hm.create name) hfits (fun f hf => ?_) fun hr => absurd hr hstop
  rw [hfn] at hf
  rw [hobj, ← Option.some.inj hf, ← hv]
  exact create_get? s name

end New

/-! ### Lookups for relocations -/

section Looks
variable {k : Nat} (h : Looks p c k a t)
include h

theorem look_grows (hnew : ∀ obj : Obj, obj.addr = a → new obj) : Grows new c.s t := by
  obtain ⟨sec, o, x, u, -, hu, rfl⟩ := h.get
  have h := getByAddr_grows hu hnew
  exact ⟨h.func, h.fn, h.module, h.objs⟩

theorem look_born (hb : Born c.s) : Born t := by
  obtain ⟨sec, o, x, u, -, hu, rfl⟩ := h.get
  have hborn := getByAddr_born (s := {c.s with sec := k, addr := x}) hb hu
  exact hborn

end Looks

/-! ### Steps -/

/-- A function that a step may come upon: a symbol delimits it, or it is called. -/
def Discovered (p : Program) (c : Config) (obj : Obj) : Prop :=
  (∃ F ∈ c.todo, obj.name = F.name ∧ obj.addr = F.start) ∨
    ∃ sec ∈ p.sections, ∃ a, callee? (sec.inst a).act = some obj.addr

theorem turn_grows (hm : Maps c.s) (h : c.s.turn p l = .ok (t, l')) :
    Grows (Discovered p c) c.s t := by
  obtain ⟨obj, hobj, ⟨-, -, hsw⟩ | ⟨-, -, sec, hsec, hinstr⟩⟩ := turn_ok h
  · have hm' : Maps {c.s with addr := l.addr} := ⟨hm.fresh, hm.ids, hm.addr, hm.name, hm.fn, hm.inj⟩
    have h : Grows (Discovered p c) {c.s with addr := l.addr} t := switch_grows hm' hobj hsw
    exact ⟨h.func, h.fn, h.module, h.objs⟩
  obtain ⟨u, blk, rfl, -, ⟨-, rfl⟩ | ⟨target, cur, hcallee, hcur, hcall⟩⟩ :=
    translateInstr_ok hinstr
  · exact .of_eq rfl rfl fun _ obj ho => ⟨obj, ho, rfl, rfl⟩
  obtain ⟨o, v, f, hv, -, rfl⟩ := handleCall_ok hcall
  have hnew : ∀ obj : Obj, obj.addr = target → Discovered p c obj := fun obj haddr =>
    .inr ⟨sec, List.mem_of_getElem? hsec, l.addr, hcallee.trans (congrArg some haddr.symm)⟩
  have h := getByAddr_grows hv hnew
  exact ⟨h.func, h.fn, h.module, h.objs⟩

/-- **What a step adds.** -/
theorem step_grows (hm : Maps c.s) (hs : c.step p = .ok c') : Grows (Discovered p c) c.s c'.s := by
  cases hl : c.loop with
  | some l =>
    obtain ⟨-, t, l', ht, rfl⟩ | ⟨-, t, ht, rfl⟩ := step_loops hl hs
    · exact turn_grows hm ht
    · exact leave_grows ht
  | none =>
    cases htodo : c.todo with
    | cons F todo =>
      obtain ⟨t, l, ht, rfl⟩ := step_enters hl htodo hs
      have hnew : Discovered p c
          {name := F.name, sec := c.s.sec, addr := F.start, stop := some F.stop} :=
        .inl ⟨F, htodo ▸ List.mem_cons_self, rfl, rfl⟩
      refine (addFunc_grows hnew).trans (translate_grows (hm.addFunc _) ht)
        fun obj obj' h hname haddr => ?_
      unfold Discovered at h ⊢
      rw [hname, haddr]
      exact h
    | nil =>
      rcases step_idle hl htodo hs with rfl | ⟨next, hnext, rfl⟩
      · exact .refl _ _
      · exact .of_eq rfl rfl fun _ obj ho => ⟨obj, ho, rfl, rfl⟩

theorem Given.born (h : Given s t o)
    (hs : ∀ o', o' ≠ o → ∀ obj, s.objs o' = some obj → obj.f.isSome) :
    Born t := by
  intro o' obj' ho'
  obtain ⟨obj, ho, -, -, -, hf⟩ := h.objs o' obj' ho'
  rw [hf]
  split
  next => rfl
  next hne => exact hs o' hne obj ho

theorem turn_born (hb : Born c.s) (h : c.s.turn p l = .ok (t, l')) : Born t := by
  obtain ⟨obj, hobj, ⟨-, -, hsw⟩ | ⟨-, -, sec, -, hinstr⟩⟩ := turn_ok h
  · obtain ⟨-, nextf, next, -, -, hgiven⟩ := switch_steady (s := {c.s with addr := l.addr}) hobj hsw
    exact hgiven.born fun o' _ obj ho => hb o' obj ho
  obtain ⟨u, blk, rfl, -, ⟨-, rfl⟩ | ⟨target, cur, -, -, hcall⟩⟩ := translateInstr_ok hinstr
  · exact hb
  obtain ⟨o, v, f, hv, -, rfl⟩ := handleCall_ok hcall
  have hborn := getByAddr_born (s := {c.s with addr := l.addr}) hb hv
  exact hborn

/-- A step leaves none without an LLVM function. -/
theorem step_born (hb : Born c.s) (hs : c.step p = .ok c') : Born c'.s := by
  cases hl : c.loop with
  | some l =>
    obtain ⟨-, t, l', ht, rfl⟩ | ⟨-, t, ht, rfl⟩ := step_loops hl hs
    · exact turn_born hb ht
    · obtain ⟨-, hobjs, -⟩ := leave_steady ht
      intro o obj' ho
      obtain ⟨obj, ho, -, -, -, hf⟩ := hobjs o obj' ho
      rw [hf]
      exact hb o obj ho
  | none =>
    cases htodo : c.todo with
    | cons F todo =>
      obtain ⟨t, l, ht, rfl⟩ := step_enters hl htodo hs
      obtain ⟨-, hgiven, -⟩ := translate_steady ht
      refine hgiven.born fun o hne obj ho => ?_
      obtain ⟨rfl, -⟩ | ⟨-, hold⟩ := addFunc_objs ho
      · exact absurd rfl hne
      · exact hb o obj hold
    | nil =>
      rcases step_idle hl htodo hs with rfl | ⟨next, hnext, rfl⟩
      · exact hb
      · exact hb

/-- What is left to do does not grow but by a section's functions. -/
theorem step_todo (hs : c.step p = .ok c') {F : Func} (hF : F ∈ c'.todo) :
    F ∈ c.todo ∨ ∃ sec ∈ p.sections, F ∈ sec.funcs := by
  cases hl : c.loop with
  | some l =>
    obtain ⟨-, t, l', -, rfl⟩ | ⟨-, t, -, rfl⟩ := step_loops hl hs
    · exact .inl hF
    · exact .inl hF
  | none =>
    cases htodo : c.todo with
    | cons G todo =>
      obtain ⟨t, l, -, rfl⟩ := step_enters hl htodo hs
      exact .inl (List.mem_cons_of_mem G hF)
    | nil =>
      rcases step_idle hl htodo hs with rfl | ⟨next, hnext, rfl⟩
      · exact .inl (htodo ▸ hF)
      · exact .inr ⟨next, List.mem_of_getElem? hnext, hF⟩

/-! ### Names -/

namespace Keys

theorem of_eq (h : Keys s) (hfunc : t.func = s.func) (hobjs : ∀ o obj', t.objs o = some obj' →
    ∃ obj, s.objs o = some obj ∧ obj'.name = obj.name) : Keys t := by
  intro n o obj' hn ho
  obtain ⟨obj, ho, hname⟩ := hobjs o obj' ho
  rw [hfunc] at hn
  exact hname.trans (h n o obj hn ho)

theorem addFunc (h : Keys s) (hm : Maps s) (obj : Obj) :
    Keys ((s.newFunction obj).addFunc s.nextObj obj) := by
  intro n o obj' hn ho
  have hn : (s.func.upsert obj.name s.nextObj).get? n = some o := hn
  rw [Map.get?_upsert] at hn
  split at hn
  next heq =>
    obtain rfl := Option.some.inj hn
    obtain ⟨-, rfl⟩ | ⟨hne, -⟩ := addFunc_objs ho
    · exact heq.symm
    · exact absurd rfl hne
  next =>
    obtain ⟨rfl, -⟩ | ⟨-, hold⟩ := addFunc_objs ho
    · exact absurd (hm.ids _ _ hn) (lt_irrefl _)
    · exact h n o obj' hn hold

theorem create (h : Keys s) (name : String) : Keys (s.create name).2 := by
  obtain ⟨f, m, n, hc⟩ := create_ok s name
  rw [hc]
  exact h

theorem getByAddr (h : Keys s) (hm : Maps s) (hu : s.getByAddr sec a = .ok (o, t)) : Keys t := by
  cases hget : s.funcByAddr.get? a with
  | some o' =>
    obtain ⟨-, rfl⟩ := getByAddr_known hu hget
    exact h
  | none =>
    obtain ⟨-, N, rfl⟩ := getByAddr_add hu hget
    have hnext : (s.create (nameAt sec a)).2.nextObj = s.nextObj := by
      obtain ⟨f, m, n, hc⟩ := create_ok s (nameAt sec a)
      rw [hc]
    have hadd := (h.create (nameAt sec a)).addFunc (hm.create _) (s.madeUp sec a)
    rw [hnext] at hadd
    exact hadd

theorem translate {x : Nat} (h : Keys s) (ht : s.translate p x o = .ok (t, l)) : Keys t := by
  obtain ⟨hsteady, hgiven, -⟩ := translate_steady ht
  refine h.of_eq hsteady.func fun o' obj' ho' => ?_
  obtain ⟨obj, ho, hname, -⟩ := hgiven.objs o' obj' ho'
  exact ⟨obj, ho, hname⟩

theorem turn (h : Keys c.s) (hm : Maps c.s) (ht : c.s.turn p l = .ok (t, l')) : Keys t := by
  obtain ⟨obj, hobj, ⟨-, -, hsw⟩ | ⟨-, -, sec, -, hinstr⟩⟩ := turn_ok ht
  · obtain ⟨hsteady, nextf, next, -, -, hgiven⟩ :=
      switch_steady (s := {c.s with addr := l.addr}) hobj hsw
    refine h.of_eq hsteady.func fun o' obj' ho' => ?_
    obtain ⟨obj, ho, hname, -⟩ := hgiven.objs o' obj' ho'
    exact ⟨obj, ho, hname⟩
  obtain ⟨u, blk, rfl, -, ⟨-, rfl⟩ | ⟨target, cur, -, -, hcall⟩⟩ := translateInstr_ok hinstr
  · exact h
  obtain ⟨o, v, f, hv, -, rfl⟩ := handleCall_ok hcall
  have hm' : Maps {c.s with addr := l.addr} :=
    ⟨hm.fresh, hm.ids, hm.addr, hm.name, hm.fn, hm.inj⟩
  have hkeys := getByAddr (s := {c.s with addr := l.addr}) h hm' hv
  exact hkeys

/-- **A step.** -/
theorem step (h : Keys c.s) (hm : Maps c.s) (hs : c.step p = .ok c') : Keys c'.s := by
  cases hl : c.loop with
  | some l =>
    obtain ⟨-, t, l', ht, rfl⟩ | ⟨-, t, ht, rfl⟩ := step_loops hl hs
    · exact h.turn hm ht
    · obtain ⟨hsteady, hobjs, -⟩ := leave_steady ht
      refine h.of_eq hsteady.func fun o obj' ho => ?_
      obtain ⟨obj, ho, hname, -⟩ := hobjs o obj' ho
      exact ⟨obj, ho, hname⟩
  | none =>
    cases htodo : c.todo with
    | cons F todo =>
      obtain ⟨t, l, ht, rfl⟩ := step_enters hl htodo hs
      exact (h.addFunc hm _).translate ht
    | nil =>
      rcases step_idle hl htodo hs with rfl | ⟨next, hnext, rfl⟩
      · exact h
      · exact h

end Keys

end RiscvSbt.Context
