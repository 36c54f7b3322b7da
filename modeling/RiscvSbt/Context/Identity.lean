import RiscvSbt.Context.Symbols
import RiscvSbt.Library.Index

/-! Functions that are not mistaken for each other.

Functions are known by bare addresses and by bare names, over all sections. Where no function
has the address or the name of another one (`Fits`), the two maps are indexes of the functions
that are alive, none is lost, and each has an LLVM function of its own with its code. -/
namespace RiscvSbt.Context
open Library Block State

/-- Which function of the guest it is. -/
structure Place where
  sec : Nat
  addr : Nat
  name : String
  deriving DecidableEq, Repr

def Obj.place (obj : Obj) : Place := ⟨obj.sec, obj.addr, obj.name⟩

/-- No other function that is known has the address or the name. -/
def Fits (s : State) (q : Place) : Prop :=
  ∀ o obj, s.objs o = some obj → obj.addr = q.addr ∨ obj.name = q.name → obj.place = q

/-- Where functions are told apart. -/
structure Distinct (p : Program) (c : Config) : Prop where
  apart : Apart p c
  unfilled : Unfilled c
  /-- The function that is switched to is in the section. -/
  switch : ∀ l o next, c.loop = some l → Cuts c.s l → c.s.funcByAddr.get? l.addr = some o →
    c.s.objs o = some next → next.sec = c.s.sec ∧ next.name ≠ "main"
  call : ∀ l sec t, c.loop = some l → l.addr < l.stop → ¬ Cuts c.s l →
    p.sections[c.s.sec]? = some sec → callee? (sec.inst l.addr).act = some t →
    Fits c.s ⟨c.s.sec, t, nameAt sec t⟩
  /-- Nothing has made `main` known before it is translated. -/
  enter : ∀ F, c.loop = none → c.todo.head? = some F →
    Fits c.s ⟨c.s.sec, F.start, F.name⟩ ∧ (F.name = "main" → c.s.module.get? "main" = none)

/-- The maps are indexes of the functions that are alive. -/
structure Identified (s : State) : Prop where
  byAddr : Indexes Obj.addr s.funcByAddr s.objs
  byName : Indexes Obj.name s.func s.objs
  fn : ∀ o obj f, s.objs o = some obj → obj.f = some f → s.module.get? obj.name = some f

/-- The function is alive, and its range is known. -/
def Ranged (s : State) (q : Place) : Prop :=
  ∃ o obj, s.objs o = some obj ∧ obj.place = q ∧ obj.stop.isSome

/-- No function is lost, though another object may have taken its place. -/
def Grown (s t : State) : Prop := ∀ o obj, s.objs o = some obj → ∃ o' obj', t.objs o' = some obj' ∧
  obj'.place = obj.place ∧ (obj.stop.isSome → obj'.stop.isSome)

/-- A function that has ended holds its code. -/
def Filled (p : Program) (c : Config) (obj : Obj) : Prop :=
  ∀ stop, obj.stop = some stop → obj.addr < stop →
    ∃ f, obj.f = some f ∧ Held p obj.sec obj.addr f c

structure Faithful (p : Program) (c : Config) : Prop where
  ident : Identified c.s
  opened : c.next = c.s.sec + 1 ∨ (c.next = 0 ∧ c.loop = none ∧ c.todo = [])
  cur : ∀ l obj, c.loop = some l → c.s.objs c.s.cur = some obj → obj.sec = c.s.sec ∧
    obj.addr = l.st ∧ obj.stop = some l.stop ∧ obj.f = some c.s.blk.func.f
  filled : ∀ o obj, c.s.objs o = some obj → (c.loop ≠ none ∧ o = c.s.cur) ∨ Filled p c obj
  symbols : ∀ k sec, p.sections[k]? = some sec → sec.isText → k < c.next →
    ∀ sym ∈ sec.symbols, sym.isValid →
      (k + 1 = c.next ∧ ∃ F ∈ c.todo, F.name = sym.name ∧ F.start = sym.addr) ∨
      Ranged c.s ⟨k, sym.addr, sym.name⟩

variable {p : Program} {s t : State} {obj old new : Obj} {o x a : Nat} {l l' : Loop} {sec : Section}
  {c c' : Config} {F : Func} {todo : List Func} {q : Place}

theorem Grown.refl (s : State) : Grown s s := fun o obj ho => ⟨o, obj, ho, rfl, id⟩

theorem Grown.trans {u : State} (h : Grown s t) (h' : Grown t u) : Grown s u := by
  intro o obj ho
  obtain ⟨o₁, obj₁, ho₁, hplace₁, hstop₁⟩ := h o obj ho
  obtain ⟨o₂, obj₂, ho₂, hplace₂, hstop₂⟩ := h' o₁ obj₁ ho₁
  exact ⟨o₂, obj₂, ho₂, hplace₂.trans hplace₁, fun hs => hstop₂ (hstop₁ hs)⟩

theorem Ranged.grown (h : Ranged s q) (hg : Grown s t) : Ranged t q := by
  obtain ⟨o, obj, ho, rfl, hstop⟩ := h
  obtain ⟨o', obj', ho', hplace, hstop'⟩ := hg o obj ho
  exact ⟨o', obj', ho', hplace, hstop' hstop⟩

namespace Identified

/-- A function changes, but for where it is and its name. -/
theorem change (h : Identified s) (new : Obj) (ho : s.objs o = some old)
    (hplace : new.place = old.place)
    (hstop : old.stop.isSome → new.stop.isSome)
    (hfn : ∀ f, new.f = some f → t.module.get? new.name = some f)
    (hmod : ∀ n f, s.module.get? n = some f → t.module.get? n = some f)
    (hby : t.funcByAddr = s.funcByAddr) (hfunc : t.func = s.func)
    (hobjs : t.objs = Function.update s.objs o (some new)) : Identified t ∧ Grown s t := by
  have hself : t.objs o = some new := by
    rw [hobjs]
    exact Function.update_self ..
  have hother : ∀ o', o' ≠ o → t.objs o' = s.objs o' := fun o' hne => by
    rw [hobjs]
    exact Function.update_of_ne hne ..
  have hkey : ∀ {K : Type} (key : Place → K) (o' : Nat),
      (t.objs o').map (fun obj => key obj.place) = (s.objs o').map fun obj => key obj.place := by
    intro K key o'
    by_cases hne : o' = o
    · subst hne
      rw [hself, ho, Option.map_some, Option.map_some, hplace]
    · rw [hother o' hne]
  refine ⟨⟨?_, ?_, fun o' obj f ho' hf => ?_⟩, fun o' obj ho' => ?_⟩
  · rw [hby]
    exact h.byAddr.congr (hkey Place.addr)
  · rw [hfunc]
    exact h.byName.congr (hkey Place.name)
  · by_cases hne : o' = o
    · subst hne
      obtain rfl := Option.some.inj (hself.symm.trans ho')
      exact hfn f hf
    · rw [hother o' hne] at ho'
      exact hmod _ _ (h.fn o' obj f ho' hf)
  · by_cases hne : o' = o
    · subst hne
      obtain rfl := Option.some.inj (ho.symm.trans ho')
      exact ⟨o', new, hself, hplace, hstop⟩
    · exact ⟨o', obj, (hother o' hne).trans ho', rfl, id⟩

/-- What is alive once a function has been added. -/
theorem add_objs (hm : Maps s) (new : Obj) (o : Nat) :
    ((s.newFunction new).addFunc s.nextObj new).objs o = if o = s.nextObj then some new
      else if s.func.get? new.name = some o then none else s.objs o := by
  by_cases ho : o = s.nextObj
  · rw [if_pos ho, ho]
    exact addFunc_self hm.ids new
  · rw [if_neg ho]
    show destroy (Function.update s.objs s.nextObj (some new)) (s.func.get? new.name) o = _
    cases hget : s.func.get? new.name with
    | none => exact Function.update_of_ne ho ..
    | some old =>
      by_cases hold : o = old
      · subst hold
        rw [if_pos rfl]
        exact Function.update_self ..
      · rw [if_neg fun heq => hold (Option.some.inj heq).symm]
        exact (Function.update_of_ne hold ..).trans (Function.update_of_ne ho ..)

/-- Where a function fits, both maps find the same one for it. -/
theorem get?_eq (h : Identified s) (hfits : Fits s new.place) :
    s.funcByAddr.get? new.addr = s.func.get? new.name := by
  ext o
  constructor
  · intro ho
    obtain ⟨obj, hobj, hkey⟩ := h.byAddr.row ho
    have hname := congrArg Place.name (hfits o obj hobj (.inl hkey))
    exact (h.byName _ _).mpr ⟨obj, hobj, hname⟩
  · intro ho
    obtain ⟨obj, hobj, hkey⟩ := h.byName.row ho
    have haddr := congrArg Place.addr (hfits o obj hobj (.inr hkey))
    exact (h.byAddr _ _).mpr ⟨obj, hobj, haddr⟩

/-- **A function that fits is added**, or takes the place of itself. -/
theorem add (h : Identified s) (new : Obj) (hm : Maps s) (hfits : Fits s new.place)
    (hfn : ∀ f, new.f = some f → s.module.get? new.name = some f)
    (hstop : Ranged s new.place → new.stop.isSome) :
    Identified ((s.newFunction new).addFunc s.nextObj new) ∧
      Grown s ((s.newFunction new).addFunc s.nextObj new) := by
  have hobjs := add_objs hm new
  have hnone : s.objs s.nextObj = none := by
    cases hget : s.objs s.nextObj with
    | none => rfl
    | some obj => exact absurd (hm.ids _ _ (hm.name _ _ hget)) (lt_irrefl _)
  refine ⟨⟨h.byAddr.upsert hnone fun o => ?_, h.byName.upsert hnone hobjs, fun o obj f ho hf => ?_⟩,
    fun o obj ho => ?_⟩
  · rw [hobjs, h.get?_eq hfits]
  · rw [hobjs] at ho
    split at ho
    next =>
      obtain rfl := Option.some.inj ho
      exact hfn f hf
    next =>
      split at ho
      next => cases ho
      next => exact h.fn o obj f ho hf
  · have hne : o ≠ s.nextObj := fun heq => by
      rw [heq, hnone] at ho
      cases ho
    by_cases hdel : s.func.get? new.name = some o
    · obtain ⟨obj', hobj', hkey⟩ := h.byName.row hdel
      obtain rfl := Option.some.inj (ho.symm.trans hobj')
      have hplace := hfits o obj ho (.inr hkey)
      exact ⟨s.nextObj, new, by rw [hobjs, if_pos rfl], hplace.symm, fun hs =>
        hstop ⟨o, obj, ho, hplace, hs⟩⟩
    · exact ⟨o, obj, by rw [hobjs, if_neg hne, if_neg hdel]; exact ho, rfl, id⟩

/-- A function that fits is entered. -/
theorem added (h : Identified s) (hm : Maps s) {a : Nat} (hget : s.funcByAddr.get? a = none)
    (hfits : Fits s ⟨s.sec, a, nameAt sec a⟩) :
    Identified (s.added sec a) ∧ Grown s (s.added sec a) := by
  let s₁ := (s.create (nameAt sec a)).2
  obtain ⟨f, m, n, hc⟩ := create_ok s (nameAt sec a)
  have hs₁ : s₁ = {s with module := m, nextFn := n} := congrArg Prod.snd hc
  have hmod : ∀ n f, s.module.get? n = some f → s₁.module.get? n = some f := fun _ _ hn =>
    create_module hn
  have hobjs : s₁.objs = s.objs := by rw [hs₁]
  have hnext : s₁.nextObj = s.nextObj := by rw [hs₁]
  have hident₁ : Identified s₁ := by
    refine ⟨?_, ?_, fun o obj f ho hf => hmod _ _ (h.fn o obj f (hobjs ▸ ho) hf)⟩
    · rw [hs₁]
      exact h.byAddr
    · rw [hs₁]
      exact h.byName
  have hfits₁ : Fits s₁ (s.madeUp sec a).place := fun o obj ho => hfits o obj (hobjs ▸ ho)
  obtain ⟨hident, hgrown⟩ := hident₁.add _ (hm.create _) hfits₁ (fun f hf => by
      obtain rfl := Option.some.inj hf
      exact create_get? s (nameAt sec a))
    (fun ⟨o, obj, ho, hplace, _⟩ => by
      have hat := h.byAddr.find (hobjs ▸ ho)
      rw [show obj.addr = a from congrArg Place.addr hplace, hget] at hat
      cases hat)
  rw [hnext] at hident hgrown
  exact ⟨hident, fun o obj ho => hgrown o obj (hobjs ▸ ho)⟩

/-- **A lookup makes a function that fits known.** -/
theorem made (h : Identified s) (hm : Maps s) {a : Nat} (hv : s.getByAddr sec a = .ok (o, t))
    (hget : s.funcByAddr.get? a = none) (hfits : Fits s ⟨s.sec, a, nameAt sec a⟩) :
    Identified t ∧ Grown s t ∧ ∀ o obj, t.objs o = some obj → s.objs o = some obj ∨
      (o = s.nextObj ∧ obj.place = ⟨s.sec, a, nameAt sec a⟩ ∧ obj.stop = none ∧
        obj.f.isSome = true) := by
  obtain ⟨hident, hgrown⟩ := h.added hm hget hfits
  obtain ⟨-, N, rfl⟩ := getByAddr_add hv hget
  refine ⟨⟨hident.byAddr, hident.byName, hident.fn⟩, hgrown, fun o obj ho => ?_⟩
  rcases getByAddr_objs hv hget ho with ⟨heq, rfl⟩ | ⟨-, hold⟩
  · exact .inr ⟨heq, rfl, rfl, rfl⟩
  · exact .inl hold

theorem updates (h : Identified s) (next : Nat) : ∃ t, s.updateNextFuncAddr x next = .ok t := by
  unfold State.updateNextFuncAddr
  cases hb : s.funcByAddr.lowerBound next with
  | none => exact ⟨s, rfl⟩
  | some i =>
    obtain ⟨obj, hobj, -⟩ := h.byAddr.row (Map.lowerBound_eq_some.mp hb).1
    have hlive : s.live i.2 = .ok obj := by
      unfold State.live
      rw [hobj]
      rfl
    simp only [hlive, bind, Except.bind]
    split
    · exact ⟨_, rfl⟩
    · split
      · exact ⟨_, rfl⟩
      · exact ⟨_, rfl⟩

/-- A lookup that fits does not fail. -/
theorem looks (h : Identified s) (hm : Maps s) {a : Nat}
    (hfits : Fits s ⟨s.sec, a, nameAt sec a⟩) : ∃ o t, s.getByAddr sec a = .ok (o, t) := by
  cases hget : s.funcByAddr.get? a with
  | some o =>
    refine ⟨o, s, ?_⟩
    unfold State.getByAddr
    rw [hget]
    rfl
  | none =>
    obtain ⟨t, ht⟩ := (h.added hm hget hfits).1.updates (x := s.sec) a
    refine ⟨s.nextObj, t, ?_⟩
    obtain ⟨f, m, n, hc⟩ := create_ok s (nameAt sec a)
    unfold State.added State.madeUp at ht
    unfold State.getByAddr
    simp only [hget, hc] at ht ⊢
    have hsec : ∀ new : Obj, ((State.newFunction {s with module := m, nextFn := n} new).addFunc
        s.nextObj new).sec = s.sec := fun _ => rfl
    rw [hsec, ht]
    rfl

/-- **A lookup finds the function of the place.** -/
theorem finds (h : Identified s) {a : Nat} (hv : s.getByAddr sec a = .ok (o, t)) (hm : Maps s)
    (hfits : Fits s ⟨s.sec, a, nameAt sec a⟩) :
    ∃ obj, t.objs o = some obj ∧ obj.place = ⟨s.sec, a, nameAt sec a⟩ := by
  cases hget : s.funcByAddr.get? a with
  | some o' =>
    obtain ⟨obj, hobj, hat⟩ := h.byAddr.row hget
    obtain ⟨rfl, rfl⟩ := getByAddr_known hv hget
    exact ⟨obj, hobj, hfits o' obj hobj (.inl hat)⟩
  | none =>
    obtain ⟨rfl, N, rfl⟩ := getByAddr_add hv hget
    obtain ⟨f, m, n, hc⟩ := create_ok s (nameAt sec a)
    refine ⟨s.madeUp sec a, ?_, rfl⟩
    have := addFunc_self (hm.create (nameAt sec a)).ids (s.madeUp sec a)
    unfold State.added
    rw [hc] at this ⊢
    exact this

/-- A lookup that fits, of a function that is known or is made known. -/
theorem looked (h : Identified s) (hm : Maps s) {a : Nat} (hv : s.getByAddr sec a = .ok (o, t))
    (hfits : Fits s ⟨s.sec, a, nameAt sec a⟩) :
    Identified t ∧ Grown s t ∧ ∀ o obj, t.objs o = some obj → s.objs o = some obj ∨
      (s.funcByAddr.get? a = none ∧ o = s.nextObj ∧ obj.place = ⟨s.sec, a, nameAt sec a⟩ ∧
        obj.stop = none ∧ obj.f.isSome = true) := by
  cases hget : s.funcByAddr.get? a with
  | some o' =>
    obtain ⟨-, rfl⟩ := getByAddr_known hv hget
    exact ⟨h, .refl _, fun _ _ ho => .inl ho⟩
  | none =>
    obtain ⟨hident, hgrown, hobjs⟩ := h.made hm hv hget hfits
    exact ⟨hident, hgrown, fun o obj ho => (hobjs o obj ho).imp_right fun hnew => ⟨rfl, hnew⟩⟩

end Identified

/-! ### Operations -/

theorem translate_objs (h : s.translate p x o = .ok (t, l)) : ∃ obj, s.objs o = some obj ∧
    t.objs = Function.update s.objs o (some {obj with f := some (s.fnOf obj.name)}) := by
  obtain ⟨obj, v, hobj, hv, -, -, -, rfl⟩ := translate_cases h
  obtain ⟨N, rfl⟩ := updateNextFuncAddr_eq hv
  let v : State := {s with cur := o, nextFuncAddr := N}
  obtain ⟨-, -, -, -, hobjs, -⟩ := start_rest p v o obj
  rw [show v.fnOf obj.name = s.fnOf obj.name from fnOf_congr rfl rfl] at hobjs
  exact ⟨obj, hobj, hobjs⟩

/-- A switch ends the range of one function, and opens that of another one. -/
theorem switch_objs (h : s.switch p obj l = .ok (t, l')) (hne : t.cur ≠ s.cur) :
    ∃ next blocks moved, s.objs t.cur = some next ∧
      t.objs = Function.update (Function.update s.objs s.cur
        (some {obj with stop := some l.addr, blocks := blocks})) t.cur
        (some {next with stop := some l.stop, blocks := moved, f := some (s.fnOf next.name)}) ∧
      (next.name ≠ "main" → t.module.get? next.name = some (s.fnOf next.name)) := by
  obtain ⟨nextf, next, blocks, moved, -, hnext, -, h⟩ := switch_cases h
  obtain ⟨obj', hobj', hobjs⟩ := translate_objs h
  obtain ⟨-, rfl, -, obj'', hobj'', -, -, -, hmod⟩ := translate_loop h
  obtain rfl := Option.some.inj (hobj'.symm.trans hobj'')
  obtain rfl := Option.some.inj (handOver_next.symm.trans hobj')
  refine ⟨next, blocks, moved, (Function.update_of_ne hne ..).symm.trans hnext, hobjs.trans ?_,
    fun hmain => (hmod fun heq => absurd heq hmain).trans (congrArg some (fnOf_congr rfl rfl))⟩
  show Function.update (Function.update (Function.update (Function.update s.objs s.cur _) s.cur _)
    t.cur _) t.cur _ = _
  rw [Function.update_idem, Function.update_idem]
  have hfn : ∀ {u : State}, u.module = s.module → u.nextFn = s.nextFn →
      u.fnOf next.name = s.fnOf next.name := fun hm hn => fnOf_congr hm hn
  refine congrArg (Function.update _ t.cur) (congrArg some ?_)
  exact congrArg (fun f : FnId => ({next with
    stop := some l.stop
    blocks := moved
    f := some f} : Obj)) (hfn rfl rfl)

/-! ### Steps -/

theorem Step.cut_st (hs : Step p c c') (hl : c.loop = some l) (hcuts : Cuts c.s l)
    (hl' : c'.loop = some l') : l'.st = l.addr ∧ l'.addr = l.addr := by
  cases hs with
  | turn loop lt stays =>
    obtain rfl := Option.some.inj (hl.symm.trans loop)
    exact absurd hcuts stays
  | leave loop le next =>
    rw [next] at hl'
    cases hl'
  | cut loop cuts registered known blk dests fnOf next st entered =>
    obtain rfl := Option.some.inj (hl.symm.trans loop)
    obtain rfl := Option.some.inj (hl'.symm.trans next)
    exact ⟨st, entered.addr.trans (entered.st.symm.trans st)⟩
  | enter loop =>
    rw [hl] at loop
    cases loop
  | idle loop =>
    rw [hl] at loop
    cases loop

theorem Filled.aside (h : Filled p c obj) (ha : Aside c.s t) : Filled p {c with s := t} obj := by
  intro stop hstop hlt
  obtain ⟨f, hf, hheld⟩ := h stop hstop hlt
  exact ⟨f, hf, Between.aside hheld ha⟩

theorem Filled.step (h : Filled p c obj) (hs : Step p c c') : Filled p c' obj := by
  intro stop hstop hlt
  obtain ⟨f, hf, hheld⟩ := h stop hstop hlt
  exact ⟨f, hf, hheld.step hs⟩

namespace Faithful

theorem init (pending : Map Nat PendingReloc) (sections : String → List Constant) :
    Faithful p (Config.init pending sections) :=
  ⟨⟨.empty, .empty, fun _ _ _ ho => (nomatch ho)⟩, .inr ⟨rfl, rfl, rfl⟩,
    fun _ _ hl => (nomatch hl), fun _ _ ho => (nomatch ho), fun _ _ _ _ hk => (nomatch hk)⟩

/-- A section is being translated. -/
theorem going (h : Faithful p c) (hl : c.loop = some l) : c.next = c.s.sec + 1 :=
  h.opened.resolve_right fun ⟨_, hn, _⟩ => by
    rw [hl] at hn
    cases hn

/-- The function in progress has ended. -/
theorem ended (h : Faithful p c) (hvac : Vacated p c) (hl : c.loop = some l)
    (hobj : c.s.objs c.s.cur = some obj) (hend : Cuts c.s l ∨ l.stop ≤ l.addr)
    (hstep : Step p c c') (hplace : new.place = obj.place) (hfn : new.f = obj.f)
    (hstop : ∀ stop, new.stop = some stop → l.st < stop → l.st < l.addr) : Filled p c' new := by
  intro stop hs hlt
  obtain ⟨-, haddr, -, hf⟩ := h.cur l obj hl hobj
  have hsec' : new.sec = obj.sec := congrArg Place.sec hplace
  have haddr' : new.addr = l.st := (congrArg Place.addr hplace).trans haddr
  rw [haddr'] at hlt ⊢
  rw [hsec']
  exact ⟨_, hfn.trans hf, hvac.held hstep hl hobj hend (hstop stop hs hlt)⟩

/-- What is left to show for a step in the loop of a function. -/
theorem symbols_step (h : Faithful p c) (htodo : c'.todo = c.todo) (hnext : c'.next = c.next)
    (hgrown : Grown c.s c'.s) :
    ∀ k sec, p.sections[k]? = some sec → sec.isText → k < c'.next →
      ∀ sym ∈ sec.symbols, sym.isValid →
        (k + 1 = c'.next ∧ ∃ F ∈ c'.todo, F.name = sym.name ∧ F.start = sym.addr) ∨
        Ranged c'.s ⟨k, sym.addr, sym.name⟩ := by
  intro k sec hk htext hlt sym hsym hv
  rw [hnext, htodo]
  exact (h.symbols k sec hk htext (hnext ▸ hlt) sym hsym hv).imp_right fun hr => hr.grown hgrown

/-- The end of a function. -/
theorem leave (h : Faithful p c) (hvac : Vacated p c) (hl : c.loop = some l)
    (hge : l.stop ≤ l.addr) (ht : c.s.leave p = .ok t)
    (hstep : Step p c ⟨t, c.next, c.todo, none⟩) :
    Faithful p ⟨t, c.next, c.todo, none⟩ ∧ Grown c.s t := by
  obtain ⟨obj, hobj, ht⟩ := bind_ok ht
  have hobj := live_ok hobj
  obtain rfl := Except.ok.inj ht
  obtain ⟨-, -, hstop, -⟩ := h.cur l obj hl hobj
  obtain ⟨hident, hgrown⟩ := h.ident.change {obj with blocks := (c.s.finish p).blk.func}
    (t := (c.s.finish p).setObj c.s.cur {obj with blocks := (c.s.finish p).blk.func}) hobj rfl id
    (fun f hf => h.ident.fn _ obj f hobj hf) (fun _ _ hn => hn) rfl rfl rfl
  refine ⟨⟨hident, ?_, fun _ _ hl => (nomatch hl), fun o obj' ho => .inr ?_,
    h.symbols_step rfl rfl hgrown⟩, hgrown⟩
  · exact .inl (h.going hl)
  · have ho : Function.update c.s.objs c.s.cur _ o = some obj' := ho
    by_cases hcur : o = c.s.cur
    · rw [hcur, Function.update_self] at ho
      obtain rfl := Option.some.inj ho
      refine h.ended hvac hl hobj (.inr hge) hstep rfl rfl fun stop hs hlt => ?_
      obtain rfl := Option.some.inj (hstop.symm.trans hs)
      omega
    · rw [Function.update_of_ne hcur] at ho
      exact ((h.filled o obj' ho).resolve_left fun hc => hcur hc.2).step hstep

/-- A switch to the function that starts here. -/
theorem cut (h : Faithful p c) (hvac : Vacated p c) (hgood : Distinct p c) (hl : c.loop = some l)
    (hcuts : Cuts c.s l) (hobj : c.s.objs c.s.cur = some obj)
    (hsw : {c.s with addr := l.addr}.switch p obj l = .ok (t, l'))
    (hstep : Step p c ⟨t, c.next, c.todo, some l'⟩) :
    Faithful p ⟨t, c.next, c.todo, some l'⟩ ∧ Grown c.s t := by
  obtain ⟨hsec, -, hstop', hget⟩ := switch_loop hsw
  obtain ⟨-, haddr, -, -⟩ := h.cur l obj hl hobj
  obtain ⟨next, hnext, hat⟩ := h.ident.byAddr.row hget
  -- The next function is another one.
  have hne : t.cur ≠ c.s.cur := fun heq => by
    rw [heq] at hnext
    obtain rfl := Option.some.inj (hobj.symm.trans hnext)
    exact hcuts.2.1 (hat.symm.trans haddr)
  obtain ⟨next', blocks, moved, hnext', hobjs, hmod⟩ := switch_objs hsw hne
  obtain rfl := Option.some.inj (hnext.symm.trans hnext')
  obtain ⟨hnsec, hmain⟩ := hgood.switch l _ next hl hcuts hget hnext
  obtain ⟨hsteady, -⟩ := switch_steady (s := {c.s with addr := l.addr}) hobj hsw
  have hfn : ({c.s with addr := l.addr} : State).fnOf next.name = c.s.fnOf next.name :=
    fnOf_congr rfl rfl
  rw [hfn] at hobjs hmod
  let left : Obj := {obj with stop := some l.addr, blocks := blocks}
  let new : Obj := {next with stop := some l.stop, blocks := moved, f := some (c.s.fnOf next.name)}
  obtain ⟨hident₁, hgrown₁⟩ := h.ident.change left (t := c.s.setObj c.s.cur left) hobj rfl
    (fun _ => rfl) (fun f hf => h.ident.fn _ obj f hobj hf) (fun _ _ hn => hn) rfl rfl rfl
  obtain ⟨hident, hgrown⟩ := hident₁.change new (t := t)
    ((Function.update_of_ne hne ..).trans hnext) rfl (fun _ => rfl)
    (fun f hf => (hmod hmain).trans hf) hsteady.module hsteady.funcByAddr hsteady.func hobjs
  have hself : t.objs t.cur = some new := by
    rw [hobjs]
    exact Function.update_self ..
  refine ⟨⟨hident, .inl ?_, fun l₂ obj' hl₂ ho => ?_, fun o obj' ho => ?_,
    h.symbols_step rfl rfl (hgrown₁.trans hgrown)⟩, hgrown₁.trans hgrown⟩
  · show c.next = t.sec + 1
    rw [hsec]
    exact h.going hl
  · obtain rfl := Option.some.inj hl₂
    obtain rfl := Option.some.inj (hself.symm.trans ho)
    refine ⟨hnsec.trans hsec.symm, hat.trans (hstep.cut_st hl hcuts rfl).1.symm,
      congrArg some hstop'.symm, congrArg some ?_⟩
    obtain ⟨o, old, hget', hold, hfnew⟩ := hstep.cut_fn hl hcuts rfl
    obtain rfl := Option.some.inj (hget.symm.trans hget')
    obtain rfl := Option.some.inj (hnext.symm.trans hold)
    exact hfnew.symm
  · by_cases hcur : o = t.cur
    · exact .inl ⟨nofun, hcur⟩
    · refine .inr ?_
      rw [show (⟨t, c.next, c.todo, some l'⟩ : Config).s.objs = t.objs from rfl, hobjs,
        Function.update_of_ne hcur] at ho
      by_cases hold : o = c.s.cur
      · rw [hold, Function.update_self] at ho
        obtain rfl := Option.some.inj ho
        refine h.ended hvac hl hobj (.inl hcuts) hstep rfl rfl fun stop hs hlt => ?_
        obtain rfl := Option.some.inj hs
        exact hlt
      · rw [Function.update_of_ne hold] at ho
        exact ((h.filled o obj' ho).resolve_left fun hc => hold hc.2).step hstep

/-- A function that a symbol delimits. -/
theorem enter (h : Faithful p c) (hm : Maps c.s) (hgood : Distinct p c) (hl : c.loop = none)
    (htodo : c.todo = F :: todo) (ht : c.s.translateFunc p F = .ok (t, l))
    (hstep : Step p c ⟨t, c.next, todo, some l⟩) :
    Faithful p ⟨t, c.next, todo, some l⟩ ∧ Grown c.s t := by
  let new : Obj := {name := F.name, sec := c.s.sec, addr := F.start, stop := some F.stop}
  let s₁ := (c.s.newFunction new).addFunc c.s.nextObj new
  have ht : s₁.translate p c.s.sec c.s.nextObj = .ok (t, l) := ht
  obtain ⟨hfits, hmain⟩ := hgood.enter F hl (by rw [htodo]; rfl)
  obtain ⟨hident₁, hgrown₁⟩ := h.ident.add new hm hfits nofun fun _ => rfl
  have hnew : s₁.objs c.s.nextObj = some new := addFunc_self hm.ids new
  obtain ⟨obj, hobj, hobjs⟩ := translate_objs ht
  obtain rfl := Option.some.inj (hnew.symm.trans hobj)
  obtain ⟨hsec, hcur, -, obj, hobj', hstop, hst, -, hmod⟩ := translate_loop ht
  obtain rfl := Option.some.inj (hnew.symm.trans hobj')
  obtain ⟨hsteady, -⟩ := translate_steady ht
  obtain ⟨hident, hgrown⟩ := hident₁.change {new with f := some (s₁.fnOf new.name)} hnew rfl
    id (fun f hf => (hmod hmain).trans hf) hsteady.module hsteady.funcByAddr hsteady.func hobjs
  have hself : t.objs c.s.nextObj = some {new with f := some (s₁.fnOf new.name)} := by
    rw [hobjs]
    exact Function.update_self ..
  have hopen : c.next = c.s.sec + 1 := h.opened.resolve_right fun ⟨_, _, hnil⟩ => by
    rw [htodo] at hnil
    cases hnil
  refine ⟨⟨hident, .inl ?_, fun l₂ obj' hl₂ ho => ?_, fun o obj' ho => ?_,
    fun k sec hk htext hlt sym hsym hv => ?_⟩, hgrown₁.trans hgrown⟩
  · show c.next = t.sec + 1
    rw [hsec]
    exact hopen
  · obtain rfl := Option.some.inj hl₂
    rw [show (⟨t, c.next, todo, some l⟩ : Config).s.cur = c.s.nextObj from hcur] at ho
    obtain rfl := Option.some.inj (hself.symm.trans ho)
    refine ⟨hsec.symm, hst.symm, hstop, congrArg some ?_⟩
    have hfn : s₁.fnOf new.name = c.s.fnOf F.name := fnOf_congr rfl rfl
    exact hfn.trans (hstep.enters_fn hl htodo rfl).symm
  · by_cases heq : o = c.s.nextObj
    · exact .inl ⟨nofun, heq.trans hcur.symm⟩
    · rw [show (⟨t, c.next, todo, some l⟩ : Config).s.objs = t.objs from rfl, hobjs,
        Function.update_of_ne heq] at ho
      obtain ⟨heq', -⟩ | ⟨-, hold⟩ := addFunc_objs ho
      · exact absurd heq' heq
      · exact .inr (((h.filled o obj' hold).resolve_left fun hc => hc.1 hl).step hstep)
  · rcases h.symbols k sec hk htext hlt sym hsym hv with ⟨hk', G, hG, hname, hstart⟩ | hknown
    · rw [htodo] at hG
      rcases List.mem_cons.mp hG with rfl | hG
      · refine .inr ⟨c.s.nextObj, _, hself, ?_, rfl⟩
        rw [← hname, ← hstart, show k = c.s.sec by omega]
        rfl
      · exact .inl ⟨hk', G, hG, hname, hstart⟩
    · exact .inr (hknown.grown (hgrown₁.trans hgrown))

/-- The loop goes on. -/
theorem goOn (h : Faithful p c) (hl : c.loop = some l) (hident : Identified t)
    (hgrown : Grown c.s t) (hcur : t.cur = c.s.cur) (hsec : t.sec = c.s.sec)
    (hobjs : ∀ o obj, t.objs o = some obj →
      c.s.objs o = some obj ∨ (o ≠ c.s.cur ∧ obj.stop = none))
    (hfn : t.blk.func.f = c.s.blk.func.f)
    (hstep : Step p c ⟨t, c.next, c.todo, some {l with addr := l.addr + 4}⟩) :
    Faithful p ⟨t, c.next, c.todo, some {l with addr := l.addr + 4}⟩ ∧ Grown c.s t := by
  refine ⟨⟨hident, .inl ?_, fun l₂ obj hl₂ ho => ?_, fun o obj ho => ?_,
    h.symbols_step rfl rfl hgrown⟩, hgrown⟩
  · show c.next = t.sec + 1
    rw [hsec]
    exact h.going hl
  · obtain rfl := Option.some.inj hl₂
    have ho : t.objs t.cur = some obj := ho
    rw [hcur] at ho
    obtain ⟨h₁, h₂, h₃, h₄⟩ := h.cur l obj hl ((hobjs _ _ ho).resolve_right fun hn => hn.1 rfl)
    exact ⟨h₁.trans hsec.symm, h₂, h₃, h₄.trans (congrArg some hfn.symm)⟩
  · rcases hobjs o obj ho with hold | ⟨-, hstop⟩
    · rcases h.filled o obj hold with ⟨-, heq⟩ | hfilled
      · exact .inl ⟨nofun, heq.trans hcur.symm⟩
      · exact .inr (hfilled.step hstep)
    · refine .inr fun stop hs => ?_
      rw [hstop] at hs
      cases hs

/-- A turn of the loop. -/
theorem turn (h : Faithful p c) (hf : Fresh p c) (hvac : Vacated p c) (hgood : Distinct p c)
    (hl : c.loop = some l) (hlt : l.addr < l.stop) (ht : c.s.turn p l = .ok (t, l'))
    (hstep : Step p c ⟨t, c.next, c.todo, some l'⟩) :
    Faithful p ⟨t, c.next, c.todo, some l'⟩ ∧ Grown c.s t := by
  obtain ⟨obj, hobj, ⟨hne, hat, hsw⟩ | ⟨hstay, rfl, sec, hsec, hinstr⟩⟩ := turn_ok ht
  · exact h.cut hvac hgood hl ⟨hlt, hne, obj, hobj, hat⟩ hobj hsw hstep
  have hfn := hstep.turn_fn hf hl rfl
  have hsame : Identified {c.s with addr := l.addr} := ⟨h.ident.byAddr, h.ident.byName, h.ident.fn⟩
  obtain ⟨u, blk, rfl, -, ⟨-, rfl⟩ | ⟨target, cur, hcallee, hcur, hcall⟩⟩ :=
    translateInstr_ok hinstr
  · exact h.goOn hl ⟨hsame.byAddr, hsame.byName, hsame.fn⟩ (.refl _) rfl rfl
      (fun _ _ ho => .inl ho) hfn hstep
  obtain ⟨o, v, f, hv, -, rfl⟩ := handleCall_ok hcall
  have hsec' := (h.cur l obj hl hobj).1
  obtain rfl : sec = cur := by
    rw [hsec'] at hsec
    exact Option.some.inj (hsec.symm.trans hcur)
  have hcut : ¬ Cuts c.s l := fun hcuts => by
    obtain ⟨-, hne, obj', hobj', hat⟩ := hcuts
    obtain rfl := Option.some.inj (hobj.symm.trans hobj')
    exact hstay hne hat
  have hfits := hgood.call l sec target hl hlt hcut hcur hcallee
  have hm : Maps {c.s with addr := l.addr} :=
    ⟨hf.maps.fresh, hf.maps.ids, hf.maps.addr, hf.maps.name, hf.maps.fn, hf.maps.inj⟩
  obtain ⟨hident, hgrown, hobjs⟩ := hsame.looked hm hv hfits
  have hcur : v.cur = c.s.cur := (getByAddr_aside hv).cur
  have hsec := getByAddr_sec hv
  refine h.goOn hl ⟨hident.byAddr, hident.byName, hident.fn⟩ hgrown hcur hsec
    (fun o obj ho => (hobjs o obj ho).imp_right fun ⟨_, heq, _, hs, _⟩ => ⟨?_, hs⟩) hfn hstep
  rw [heq]
  exact Nat.ne_of_gt (hf.maps.ids _ _ (hf.maps.name _ _ hobj))

/-- The next section, or the end. -/
theorem idle (h : Faithful p c) (hl : c.loop = none) (htodo : c.todo = [])
    (hs : c.step p = .ok c') (hstep : Step p c c') :
    Faithful p c' ∧ Grown c.s c'.s := by
  rcases step_idle hl htodo hs with rfl | ⟨next, hnext, rfl⟩
  · exact ⟨h, .refl _⟩
  refine ⟨⟨⟨h.ident.byAddr, h.ident.byName, h.ident.fn⟩, .inl rfl, fun _ _ hl => (nomatch hl),
    fun o obj ho => ?_, fun k sec hk htext hlt sym hsym hv => ?_⟩, .refl _⟩
  · exact .inr (((h.filled o obj ho).resolve_left fun hc => hc.1 hl).step hstep)
  · by_cases hcurrent : k = c.next
    · subst hcurrent
      obtain rfl := Option.some.inj (hnext.symm.trans hk)
      exact .inl ⟨rfl, funcs_mem htext hsym hv⟩
    · have hlt : k < c.next + 1 := hlt
      rcases h.symbols k sec hk htext (by omega) sym hsym hv with ⟨-, F, hF, -⟩ | hknown
      · rw [htodo] at hF
        cases hF
      · exact .inr hknown

/-- **A step that tells functions apart.** -/
theorem step (h : Faithful p c) (hf : Fresh p c) (hvac : Vacated p c) (hgood : Distinct p c)
    (hs : c.step p = .ok c') (hstep : Step p c c') :
    Faithful p c' ∧ Grown c.s c'.s := by
  cases hl : c.loop with
  | some l =>
    obtain ⟨hlt, t, l', ht, rfl⟩ | ⟨hge, t, ht, rfl⟩ := step_loops hl hs
    · exact h.turn hf hvac hgood hl hlt ht hstep
    · exact h.leave hvac hl hge ht hstep
  | none =>
    cases htodo : c.todo with
    | cons F todo =>
      obtain ⟨t, l, ht, rfl⟩ := step_enters hl htodo hs
      exact h.enter hf.maps hgood hl htodo ht hstep
    | nil => exact h.idle hl htodo hs hstep

/-! ### Lookups and images -/

/-- The range of a new function is not known. -/
theorem aside (h : Faithful p c) (hf : Fresh p c) (ha : Aside c.s t) (hsec : t.sec = c.s.sec)
    (hident : Identified t) (hgrown : Grown c.s t)
    (hnew : ∀ o obj, t.objs o = some obj → c.s.objs o = some obj ∨ obj.stop = none) :
    Faithful p {c with s := t} := by
  refine ⟨hident, ?_, fun l obj hl ho => ?_, fun o obj ho => ?_,
    fun k sec hk htext hlt sym hsym hv => ?_⟩
  · show c.next = t.sec + 1 ∨ _
    rw [hsec]
    exact h.opened
  · have ho : t.objs t.cur = some obj := ho
    show obj.sec = t.sec ∧ _ ∧ _ ∧ obj.f = some t.blk.func.f
    rw [ha.cur] at ho
    rw [hsec, ha.blk]
    rcases ha.objs _ obj ho with hold | ⟨heq, -⟩
    · exact h.cur l obj hl hold
    · obtain ⟨_, _, _, _, hr⟩ := hf.run l hl
      exact absurd heq (Nat.ne_of_lt hr.cur)
  · rcases hnew o obj ho with hold | hstop
    · refine (h.filled o obj hold).imp (fun hcur => ⟨hcur.1, ?_⟩) fun hfilled => hfilled.aside ha
      exact hcur.2.trans ha.cur.symm
    · refine .inr fun stop hs => ?_
      rw [hstop] at hs
      cases hs
  · exact (h.symbols k sec hk htext hlt sym hsym hv).imp_right fun hr => hr.grown hgrown

theorem image (h : Faithful p c) (hl : c.loop = none) {pending : Map Nat PendingReloc}
    {sections : String → List Constant} : Faithful p (c.image pending sections) := by
  refine ⟨⟨h.ident.byAddr, h.ident.byName, h.ident.fn⟩, h.opened, h.cur, fun o obj ho => ?_,
    h.symbols⟩
  refine (h.filled o obj ho).imp_right fun hfilled stop hstop hlt => ?_
  obtain ⟨f, hf, hheld⟩ := hfilled stop hstop hlt
  exact ⟨f, hf, hheld.image hl (holds_keeps p obj.sec obj.addr f)⟩

end Faithful

/-- **A lookup of a function that fits**, which is known or is made known. -/
theorem Looks.made (h : Looks p c x a t) (hi : Identified c.s) (hm : Maps c.s)
    (hfits : ∀ sec, p.sections[x]? = some sec → Fits c.s ⟨x, a, nameAt sec a⟩) :
    Identified t ∧ Grown c.s t ∧ ∀ o obj, t.objs o = some obj → c.s.objs o = some obj ∨
      (c.s.funcByAddr.get? a = none ∧ o = c.s.nextObj ∧ obj.sec = x ∧ obj.addr = a ∧
        obj.stop = none ∧ obj.f.isSome = true) := by
  obtain ⟨sec, o, y, u, hsec, hu, rfl⟩ := h.get
  have hi' : Identified {c.s with sec := x, addr := y} := ⟨hi.byAddr, hi.byName, hi.fn⟩
  have hm' : Maps {c.s with sec := x, addr := y} :=
    ⟨hm.fresh, hm.ids, hm.addr, hm.name, hm.fn, hm.inj⟩
  obtain ⟨hident, hgrown, hobjs⟩ := hi'.looked hm' hu (hfits sec hsec)
  refine ⟨⟨hident.byAddr, hident.byName, hident.fn⟩, hgrown, fun o obj ho => ?_⟩
  refine (hobjs o obj ho).imp_right fun ⟨hget, heq, hplace, hnew⟩ => ⟨hget, heq, ?_, ?_, hnew⟩
  · exact congrArg Place.sec hplace
  · exact congrArg Place.addr hplace

theorem Faithful.look (h : Faithful p c) (hf : Fresh p c) (hlook : Looks p c x a t)
    (hfits : ∀ sec, p.sections[x]? = some sec → Fits c.s ⟨x, a, nameAt sec a⟩) :
    Faithful p {c with s := t} ∧ Grown c.s t := by
  obtain ⟨hident, hgrown, hobjs⟩ := hlook.made h.ident hf.maps hfits
  exact ⟨h.aside hf hlook.aside hlook.sec hident hgrown fun o obj ho =>
    (hobjs o obj ho).imp_right fun hnew => hnew.2.2.2.2.1, hgrown⟩

end RiscvSbt.Context
