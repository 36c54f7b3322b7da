import RiscvSbt.Context.Identity

/-! The functions of the guest when a translation is complete.

A function may be known before its range is: a call or a relocation has looked it up. As long as
it lies in a range that is still to be translated (`ToCome`), and the loop switches to it when it
gets there, it is not left without code. -/
namespace RiscvSbt.Context
open Library Block State

/-- The address is in a range of the section that is still to be translated. -/
def ToCome (p : Program) (c : Config) (k a : Nat) : Prop :=
  a % 4 = 0 ∧
    ((k + 1 = c.next ∧ ∃ r ∈ c.left, r.1 ≤ a ∧ a < r.2) ∨
      (c.next ≤ k ∧ ∃ sec, p.sections[k]? = some sec ∧ ∃ F ∈ sec.funcs, F.start ≤ a ∧ a < F.stop))

/-- Where functions are told apart, and each that is made known gets its code. -/
structure Serves (p : Program) (c : Config) : Prop where
  distinct : Distinct p c
  /-- The loop switches at every function of the section that is known. -/
  arrive : ∀ l o obj, c.loop = some l → l.addr < l.stop → l.addr ≠ l.st →
    c.s.funcByAddr.get? l.addr = some o → c.s.objs o = some obj → obj.sec = c.s.sec → Cuts c.s l
  call : ∀ l sec t, c.loop = some l → l.addr < l.stop → ¬ Cuts c.s l →
    p.sections[c.s.sec]? = some sec → callee? (sec.inst l.addr).act = some t →
    (c.s.funcByAddr.get? t).isSome ∨ (ToCome p c c.s.sec t ∧ t ≠ l.addr)
  /-- A function that is entered has words. -/
  enter : ∀ F, c.loop = none → c.todo.head? = some F → F.start < F.stop

/-- What a relocation refers to is told apart, and gets its code. -/
def Admits (p : Program) (c : Config) (k a : Nat) : Prop :=
  (∀ sec, p.sections[k]? = some sec → Fits c.s ⟨k, a, nameAt sec a⟩) ∧
    ((c.s.funcByAddr.get? a).isSome ∨ ToCome p c k a)

/-- There is nothing left to translate. -/
def Config.Complete (p : Program) (c : Config) : Prop :=
  c.loop = none ∧ c.todo = [] ∧ p.sections[c.next]? = none

/-- Each function that is known has an LLVM function. What is known of it is its range, or that
its code is still to come. -/
structure Provided (p : Program) (c : Config) : Prop where
  fn : ∀ o obj, c.s.objs o = some obj → obj.f.isSome = true
  ahead : ∀ o obj, c.s.objs o = some obj → obj.stop = none → ToCome p c obj.sec obj.addr
  bound : ∀ o obj stop, c.s.objs o = some obj → obj.stop = some stop → obj.addr < stop
  calls : ∀ a f, (a, f) ∈ c.s.calls → ∃ o obj, c.s.objs o = some obj ∧ obj.addr = a ∧
    c.s.module.get? obj.name = some f

variable {p : Program} {s t : State} {obj : Obj} {l l' : Loop} {c c' c₀ : Config} {F : Func}
  {todo : List Func} {k a : Nat} {q : Place}

/-! ### What is still to be translated -/

namespace ToCome

/-- The loop gets closer, and is not there yet. -/
theorem turn (h : ToCome p c k a) (hl : c.loop = some l) (hne : a ≠ l.addr) (hmod : l.addr % 4 = 0)
    (hl' : c'.loop = some {l with addr := l.addr + 4}) (htodo : c'.todo = c.todo)
    (hnext : c'.next = c.next) : ToCome p c' k a := by
  obtain ⟨ha, ⟨hk, r, hr, hle, hlt⟩ | hlater⟩ := h
  · refine ⟨ha, .inl ⟨hnext ▸ hk, ?_⟩⟩
    rw [left_loop hl] at hr
    rw [left_loop hl', htodo]
    rcases List.mem_cons.mp hr with rfl | hr
    · have hle : l.addr ≤ a := hle
      exact ⟨_, List.mem_cons_self, show l.addr + 4 ≤ a by omega, hlt⟩
    · exact ⟨r, List.mem_cons_of_mem _ hr, hle, hlt⟩
  · exact ⟨ha, .inr (hnext ▸ hlater)⟩

/-- A function whose words have been translated ends. -/
theorem leave (h : ToCome p c k a) (hl : c.loop = some l) (hge : l.stop ≤ l.addr)
    (hl' : c'.loop = none) (htodo : c'.todo = c.todo) (hnext : c'.next = c.next) :
    ToCome p c' k a := by
  obtain ⟨ha, ⟨hk, r, hr, hle, hlt⟩ | hlater⟩ := h
  · refine ⟨ha, .inl ⟨hnext ▸ hk, r, ?_, hle, hlt⟩⟩
    rw [left_loop hl] at hr
    rw [left_idle hl', htodo]
    refine (List.mem_cons.mp hr).resolve_left ?_
    rintro rfl
    exact absurd (lt_of_le_of_lt hle hlt) (Nat.not_lt.mpr hge)
  · exact ⟨ha, .inr (hnext ▸ hlater)⟩

/-- What is left is the same. -/
theorem same (h : ToCome p c k a) (hleft : c'.left = c.left) (hnext : c'.next = c.next) :
    ToCome p c' k a := by
  unfold ToCome
  rw [hleft, hnext]
  exact h

/-- The next section is begun. -/
theorem idle (h : ToCome p c k a) {sec : Section} (hl : c.loop = none) (htodo : c.todo = [])
    (hsec : p.sections[c.next]? = some sec) (hl' : c'.loop = none) (htodo' : c'.todo = sec.funcs)
    (hnext : c'.next = c.next + 1) : ToCome p c' k a := by
  obtain ⟨ha, ⟨-, r, hr, -⟩ | ⟨hk, sec', hsec', F, hF, hle, hlt⟩⟩ := h
  · rw [left_idle hl, htodo] at hr
    cases hr
  · by_cases hcurrent : k = c.next
    · subst hcurrent
      obtain rfl := Option.some.inj (hsec.symm.trans hsec')
      refine ⟨ha, .inl ⟨hnext.symm, (F.start, F.stop), ?_, hle, hlt⟩⟩
      rw [left_idle hl', htodo']
      exact List.mem_map_of_mem hF
    · exact ⟨ha, .inr ⟨by omega, sec', hsec', F, hF, hle, hlt⟩⟩

/-- Nothing is in a section that is done. -/
theorem not_done (h : ToCome p c k a) (hl : c.loop = none) (htodo : c.todo = []) : c.next ≤ k := by
  obtain ⟨-, ⟨-, r, hr, -⟩ | ⟨hk, -⟩⟩ := h
  · rw [left_idle hl, htodo] at hr
    cases hr
  · exact hk

/-- In the end nothing is. -/
theorem not_complete (h : ToCome p c k a) : ¬ c.Complete p := by
  rintro ⟨hl, htodo, hnone⟩
  have hle := h.not_done hl htodo
  obtain ⟨-, ⟨-, r, hr, -⟩ | ⟨-, sec, hsec, -⟩⟩ := h
  · rw [left_idle hl, htodo] at hr
    cases hr
  · obtain ⟨hlt, -⟩ := List.getElem?_eq_some_iff.mp hsec
    have := List.getElem?_eq_none_iff.mp hnone
    omega

end ToCome

/-! ### Steps -/

namespace Provided

theorem init (pending : Map Nat PendingReloc) (sections : String → List Constant) :
    Provided p (Config.init pending sections) :=
  ⟨fun _ _ ho => (nomatch ho), fun _ _ ho => (nomatch ho), fun _ _ _ ho => (nomatch ho),
    fun _ _ hc => (nomatch hc)⟩

/-- Calls stay those of functions that are known. -/
theorem called (h : Provided p c) (hgrown : Grown c.s t)
    (hmod : ∀ n f, c.s.module.get? n = some f → t.module.get? n = some f) {f : FnId}
    (hc : (a, f) ∈ c.s.calls) :
    ∃ o obj, t.objs o = some obj ∧ obj.addr = a ∧ t.module.get? obj.name = some f := by
  obtain ⟨o, obj, ho, rfl, hf⟩ := h.calls a f hc
  obtain ⟨o', obj', ho', hplace, -⟩ := hgrown o obj ho
  have hname : obj'.name = obj.name := congrArg Place.name hplace
  exact ⟨o', obj', ho', congrArg Place.addr hplace, hname ▸ hmod _ _ hf⟩

/-- The objects are those from before, have a range, or are ahead. -/
theorem of_objs (h : Provided p c)
    (hobjs : ∀ o obj, c'.s.objs o = some obj → c.s.objs o = some obj ∨
      (obj.f.isSome = true ∧ ((∃ stop, obj.stop = some stop ∧ obj.addr < stop) ∨
        (obj.stop = none ∧ ToCome p c' obj.sec obj.addr))))
    (hahead : ∀ o obj, c.s.objs o = some obj → obj.stop = none → ToCome p c obj.sec obj.addr →
      ToCome p c' obj.sec obj.addr)
    (hcalls : ∀ a f, (a, f) ∈ c'.s.calls → ∃ o obj, c'.s.objs o = some obj ∧ obj.addr = a ∧
      c'.s.module.get? obj.name = some f) : Provided p c' := by
  refine ⟨fun o obj ho => ?_, fun o obj ho hstop => ?_, fun o obj stop ho hstop => ?_, hcalls⟩
  · exact (hobjs o obj ho).elim (h.fn o obj) And.left
  · rcases hobjs o obj ho with hold | ⟨-, ⟨stop, hs, -⟩ | ⟨-, ha⟩⟩
    · exact hahead o obj hold hstop (h.ahead o obj hold hstop)
    · rw [hstop] at hs
      cases hs
    · exact ha
  · rcases hobjs o obj ho with hold | ⟨-, ⟨stop', hs, hlt⟩ | ⟨hs, -⟩⟩
    · exact h.bound o obj stop hold hstop
    · obtain rfl := Option.some.inj (hs.symm.trans hstop)
      exact hlt
    · rw [hs] at hstop
      cases hstop

/-- The end of a function. -/
theorem leave (h : Provided p c) (hc : Faithful p c) (hl : c.loop = some l) (hge : l.stop ≤ l.addr)
    (ht : c.s.leave p = .ok t) (hgrown : Grown c.s t) :
    Provided p ⟨t, c.next, c.todo, none⟩ := by
  have hmod := (leave_steady ht).1.module
  have hcalls := (leave_steady ht).1.calls
  obtain ⟨obj, hobj, ht⟩ := bind_ok ht
  have hobj := live_ok hobj
  obtain rfl := Except.ok.inj ht
  obtain ⟨-, -, hstop, -⟩ := hc.cur l obj hl hobj
  refine h.of_objs (fun o obj' ho => ?_) (fun _ _ _ _ ha => ha.leave hl hge rfl rfl rfl)
    fun a f hc => h.called hgrown hmod (hcalls ▸ hc)
  have ho : Function.update c.s.objs c.s.cur _ o = some obj' := ho
  by_cases hcur : o = c.s.cur
  · rw [hcur, Function.update_self] at ho
    obtain rfl := Option.some.inj ho
    exact .inr ⟨h.fn _ obj hobj, .inl ⟨_, hstop, h.bound _ obj _ hobj hstop⟩⟩
  · rw [Function.update_of_ne hcur] at ho
    exact .inl ho

/-- A switch to the function that starts here. -/
theorem cut (h : Provided p c) (hc : Faithful p c) (hf : Fresh p c) (hl : c.loop = some l)
    (hcuts : Cuts c.s l) (hobj : c.s.objs c.s.cur = some obj)
    (hsw : {c.s with addr := l.addr}.switch p obj l = .ok (t, l'))
    (hstep : Step p c ⟨t, c.next, c.todo, some l'⟩) (hgrown : Grown c.s t) :
    Provided p ⟨t, c.next, c.todo, some l'⟩ := by
  obtain ⟨-, -, hstop', hget⟩ := switch_loop hsw
  obtain ⟨-, haddr, -, -⟩ := hc.cur l obj hl hobj
  obtain ⟨next, hnext, hat⟩ := hc.ident.byAddr.row hget
  have hne : t.cur ≠ c.s.cur := fun heq => by
    rw [heq] at hnext
    obtain rfl := Option.some.inj (hobj.symm.trans hnext)
    exact hcuts.2.1 (hat.symm.trans haddr)
  obtain ⟨next', blocks, moved, hnext', hobjs, -⟩ := switch_objs hsw hne
  obtain rfl := Option.some.inj (hnext.symm.trans hnext')
  obtain ⟨hsteady, -⟩ := switch_steady (s := {c.s with addr := l.addr}) hobj hsw
  obtain ⟨body, s₀, f, pr, hr⟩ := hf.run l hl
  have hle := hr.le
  have hleft : Config.left ⟨t, c.next, c.todo, some l'⟩ = c.left := by
    rw [left_loop (c := ⟨t, c.next, c.todo, some l'⟩) rfl, left_loop hl, hstop',
      (hstep.cut_st hl hcuts rfl).2]
  refine h.of_objs (fun o obj' ho => ?_) (fun _ _ _ _ ha => ha.same hleft rfl)
    fun a f hc => h.called hgrown hsteady.module (hsteady.calls ▸ hc)
  have ho : t.objs o = some obj' := ho
  rw [hobjs] at ho
  by_cases hcur : o = t.cur
  · rw [hcur, Function.update_self] at ho
    obtain rfl := Option.some.inj ho
    exact .inr ⟨rfl, .inl ⟨_, rfl, show next.addr < _ from hat ▸ hcuts.1⟩⟩
  · rw [Function.update_of_ne hcur] at ho
    by_cases hold : o = c.s.cur
    · rw [hold, Function.update_self] at ho
      obtain rfl := Option.some.inj ho
      have hne := hcuts.2.1
      exact .inr ⟨h.fn _ obj hobj, .inl ⟨_, rfl, show obj.addr < l.addr by omega⟩⟩
    · rw [Function.update_of_ne hold] at ho
      exact .inl ho

/-- A function that a symbol delimits. -/
theorem enter (h : Provided p c) (hm : Maps c.s) (hgood : Serves p c) (hl : c.loop = none)
    (htodo : c.todo = F :: todo) (ht : c.s.translateFunc p F = .ok (t, l)) (hgrown : Grown c.s t) :
    Provided p ⟨t, c.next, todo, some l⟩ := by
  let new : Obj := {name := F.name, sec := c.s.sec, addr := F.start, stop := some F.stop}
  let s₁ := (c.s.newFunction new).addFunc c.s.nextObj new
  have ht : s₁.translate p c.s.sec c.s.nextObj = .ok (t, l) := ht
  have hnew : s₁.objs c.s.nextObj = some new := addFunc_self hm.ids new
  obtain ⟨obj, hobj, hobjs⟩ := translate_objs ht
  obtain rfl := Option.some.inj (hnew.symm.trans hobj)
  obtain ⟨-, -, -, obj, hobj', hstop, -, haddr, -⟩ := translate_loop ht
  obtain rfl := Option.some.inj (hnew.symm.trans hobj')
  obtain ⟨hsteady, -⟩ := translate_steady ht
  have hleft : Config.left ⟨t, c.next, todo, some l⟩ = c.left := by
    rw [left_loop (c := ⟨t, c.next, todo, some l⟩) rfl, left_idle hl, htodo, List.map_cons, haddr,
      ← Option.some.inj hstop]
  refine h.of_objs (fun o obj' ho => ?_) (fun _ _ _ _ ha => ha.same hleft rfl)
    fun a f hc => h.called hgrown hsteady.module (hsteady.calls ▸ hc)
  have ho : t.objs o = some obj' := ho
  rw [hobjs] at ho
  by_cases heq : o = c.s.nextObj
  · rw [heq, Function.update_self] at ho
    obtain rfl := Option.some.inj ho
    exact .inr ⟨rfl, .inl ⟨_, rfl, hgood.enter F hl (by rw [htodo]; rfl)⟩⟩
  · rw [Function.update_of_ne heq] at ho
    obtain ⟨heq', -⟩ | ⟨-, hold⟩ := addFunc_objs ho
    · exact absurd heq' heq
    · exact .inl hold

/-- An instruction, in front of which no function is passed over. -/
theorem turn (h : Provided p c) (hc : Faithful p c) (hf : Fresh p c) (hgood : Serves p c)
    (hl : c.loop = some l) (hlt : l.addr < l.stop) (ht : c.s.turn p l = .ok (t, l'))
    (hcut : ¬ Cuts c.s l) (hgrown : Grown c.s t)
    (hmod : ∀ n f, c.s.module.get? n = some f → t.module.get? n = some f) :
    Provided p ⟨t, c.next, c.todo, some l'⟩ := by
  obtain ⟨obj, hobj, ⟨hne, hat, -⟩ | ⟨-, rfl, sec, hsec, hinstr⟩⟩ := turn_ok ht
  · exact absurd ⟨hlt, hne, obj, hobj, hat⟩ hcut
  obtain ⟨body, s₀, f, pr, hr⟩ := hf.run l hl
  obtain ⟨main, key, hinv, -⟩ := hr.inv
  have hmod' := hinv.aligned
  obtain ⟨hsec', haddr, hstop, -⟩ := hc.cur l obj hl hobj
  -- What is ahead is not passed over.
  have hahead : ∀ o obj', c.s.objs o = some obj' → obj'.stop = none →
      ToCome p c obj'.sec obj'.addr →
      ToCome p ⟨t, c.next, c.todo, some {l with addr := l.addr + 4}⟩ obj'.sec obj'.addr := by
    intro o obj' ho hnone ha
    obtain ⟨-, ⟨hk, -⟩ | hlater⟩ := id ha
    · refine ha.turn hl (fun heq => ?_) hmod' rfl rfl rfl
      have hopen := hc.going hl
      have hget := hc.ident.byAddr.find ho
      rw [heq] at hget
      by_cases hst : l.addr = l.st
      · have hcur := hc.ident.byAddr.find hobj
        rw [haddr, ← hst, hget] at hcur
        obtain rfl := Option.some.inj hcur
        obtain rfl := Option.some.inj (ho.symm.trans hobj)
        rw [hnone] at hstop
        cases hstop
      · exact hcut (hgood.arrive l o obj' hl hlt hst hget ho (by omega))
    · exact ⟨ha.1, .inr hlater⟩
  obtain ⟨u, blk, rfl, -, ⟨-, rfl⟩ | ⟨target, cur, hcallee, hcur, hcall⟩⟩ :=
    translateInstr_ok hinstr
  · exact h.of_objs (fun _ _ ho => .inl ho) hahead fun a f hc => h.called hgrown hmod hc
  obtain ⟨o, v, g, hv, ⟨obj', ho, hg⟩, rfl⟩ := handleCall_ok hcall
  have hident : Identified {c.s with addr := l.addr} :=
    ⟨hc.ident.byAddr, hc.ident.byName, hc.ident.fn⟩
  have hm : Maps {c.s with addr := l.addr} :=
    ⟨hf.maps.fresh, hf.maps.ids, hf.maps.addr, hf.maps.name, hf.maps.fn, hf.maps.inj⟩
  obtain rfl : sec = cur := by
    rw [hsec'] at hsec
    exact Option.some.inj (hsec.symm.trans hcur)
  have hfits := hgood.distinct.call l sec target hl hlt hcut hcur hcallee
  obtain ⟨hident', hgrown', hobjs⟩ := hident.looked hm hv hfits
  refine h.of_objs (fun o obj' ho => (hobjs o obj' ho).imp_right ?_) hahead fun a f hcalls => ?_
  · rintro ⟨hget, -, hplace, hs, hf⟩
    refine ⟨hf, .inr ⟨hs, ?_⟩⟩
    obtain ⟨ha, hne⟩ := (hgood.call l sec target hl hlt hcut hcur hcallee).resolve_left fun hk => by
      rw [hget] at hk
      cases hk
    rw [show obj'.sec = c.s.sec from congrArg Place.sec hplace,
      show obj'.addr = target from congrArg Place.addr hplace]
    exact ha.turn hl hne hmod' rfl rfl rfl
  · have hcalls : (a, f) ∈ v.calls ++ [(target, g)] := hcalls
    rcases List.mem_append.mp hcalls with hold | hnew
    · rw [getByAddr_calls hv] at hold
      exact h.called hgrown hmod hold
    · obtain ⟨rfl, rfl⟩ := Prod.mk.inj (List.mem_singleton.mp hnew)
      obtain ⟨obj₁, ho₁, hplace⟩ := hident.finds hv hm hfits
      obtain rfl := Option.some.inj (ho.symm.trans ho₁)
      exact ⟨o, obj', ho, congrArg Place.addr hplace, hident'.fn o obj' f ho hg⟩

/-- **A step that serves what is known.** -/
theorem step (h : Provided p c) (hc : Faithful p c) (hf : Fresh p c) (hgood : Serves p c)
    (hs : c.step p = .ok c') (hstep : Step p c c') (hgrown : Grown c.s c'.s) : Provided p c' := by
  cases hl : c.loop with
  | some l =>
    obtain ⟨-, -, -, hmod, -⟩ := step_loop hf.maps hl hs
    obtain ⟨hlt, t, l', ht, rfl⟩ | ⟨hge, t, ht, rfl⟩ := step_loops hl hs
    · by_cases hcut : Cuts c.s l
      · obtain ⟨obj, hobj, ⟨-, -, hsw⟩ | ⟨hno, -⟩⟩ := turn_ok ht
        · exact h.cut hc hf hl hcut hobj hsw hstep hgrown
        · obtain ⟨-, hne, obj', hobj', hat⟩ := hcut
          obtain rfl := Option.some.inj (hobj.symm.trans hobj')
          exact absurd hat (hno hne)
      · exact h.turn hc hf hgood hl hlt ht hcut hgrown hmod
    · exact h.leave hc hl hge ht hgrown
  | none =>
    cases htodo : c.todo with
    | cons F todo =>
      obtain ⟨t, l, ht, rfl⟩ := step_enters hl htodo hs
      exact h.enter hf.maps hgood hl htodo ht hgrown
    | nil =>
      rcases step_idle hl htodo hs with rfl | ⟨sec, hsec, rfl⟩
      · exact h
      · exact h.of_objs (fun _ _ ho => .inl ho)
          (fun _ _ _ _ ha => ha.idle hl htodo hsec rfl rfl rfl) h.calls

/-- A function that a relocation refers to. -/
theorem look (h : Provided p c) (hc : Faithful p c) (hf : Fresh p c) (hlook : Looks p c k a t)
    (hadmits : Admits p c k a) : Provided p {c with s := t} := by
  obtain ⟨-, hgrown, hobjs⟩ := hlook.made hc.ident hf.maps hadmits.1
  refine h.of_objs (fun o obj ho => (hobjs o obj ho).imp_right ?_)
    (fun _ _ _ _ ha => ha.same rfl rfl)
    fun a f hc => h.called hgrown (fun _ _ hn => hlook.module hn) (hlook.calls ▸ hc)
  rintro ⟨hget, -, rfl, rfl, hstop, hf⟩
  refine ⟨hf, .inr ⟨hstop, (hadmits.2.resolve_left fun hk => ?_).same rfl rfl⟩⟩
  rw [hget] at hk
  cases hk

end Provided

/-! ### Runs -/

/-- **Runs serve what is known**, and lose no function. -/
theorem Moves.provided (hp : p.Aligned)
    (h0 : (Fresh p c₀ ∧ Between p Linked c₀ ∧ Vacated p c₀) ∧ Faithful p c₀ ∧ Provided p c₀)
    (h : Moves p (Serves p) (Admits p) c₀ c) :
    (Fresh p c ∧ Between p Linked c ∧ Vacated p c) ∧ (Faithful p c ∧ Provided p c) ∧
      Grown c₀.s c.s := by
  refine h.vacated (I := fun c => (Faithful p c ∧ Provided p c) ∧ Grown c₀.s c.s) hp
    (fun _ hgood => ⟨hgood.distinct.apart, hgood.distinct.unfilled⟩) ⟨h0.1, h0.2, .refl _⟩ ?_ ?_ ?_
  · rintro c c' hf hv hgood hs hstep ⟨⟨hc, hprov⟩, hgrown⟩
    obtain ⟨hc', hgrown'⟩ := hc.step hf hv hgood.distinct hs hstep
    exact ⟨⟨hc', hprov.step hc hf hgood hs hstep hgrown'⟩, hgrown.trans hgrown'⟩
  · rintro c pending sections hl htodo ⟨⟨hc, hprov⟩, hgrown⟩
    refine ⟨⟨hc.image hl, hprov.of_objs (fun _ _ ho => .inl ho) (fun _ _ _ _ ha => ?_)
      hprov.calls⟩, hgrown⟩
    exact ha.same rfl rfl
  · rintro c k a t hf hadmits hlook ⟨⟨hc, hprov⟩, hgrown⟩
    obtain ⟨hc', hgrown'⟩ := hc.look hf hlook hadmits.1
    exact ⟨⟨hc', hprov.look hc hf hlook hadmits⟩, hgrown.trans hgrown'⟩

/-- Once nothing of it is to come, a function that is known has its code. -/
theorem Provided.held (h : Provided p c) (hc : Faithful p c) (hl : c.loop = none) {o : Nat}
    (ho : c.s.objs o = some obj) (hdone : ¬ ToCome p c obj.sec obj.addr) :
    ∃ f, obj.f = some f ∧ Holds p obj.sec obj.addr f c.s.blk c.s.dests := by
  cases hstop : obj.stop with
  | none => exact absurd (h.ahead o obj ho hstop) hdone
  | some stop =>
    have hfilled := (hc.filled o obj ho).resolve_left fun hn => hn.1 hl
    obtain ⟨f, hf, hheld⟩ := hfilled stop hstop (h.bound o obj stop ho hstop)
    exact ⟨f, hf, hheld.idle hl⟩

/-- In the end all that are known have their code. -/
theorem Provided.all (h : Provided p c) (hc : Faithful p c) (hdone : c.Complete p) {o : Nat}
    (ho : c.s.objs o = some obj) :
    ∃ f, obj.f = some f ∧ Holds p obj.sec obj.addr f c.s.blk c.s.dests :=
  h.held hc hdone.1 ho fun ha => ha.not_complete hdone

def State.fits (s : State) (q : Place) : Bool :=
  (List.range s.nextObj).all fun o => match s.objs o with
  | some obj => (obj.addr ≠ q.addr && obj.name ≠ q.name) || obj.place = q
  | none => true

theorem fits_spec (hm : Maps s) (h : s.fits q = true) : Fits s q := by
  intro o obj ho hor
  have hlt := hm.ids _ _ (hm.name o obj ho)
  have ho' := List.all_eq_true.mp h o (List.mem_range.mpr hlt)
  simp only [ho, Bool.or_eq_true, Bool.and_eq_true, decide_eq_true_eq] at ho'
  rcases ho' with ⟨hne, hne'⟩ | heq
  · exact absurd hor (not_or.mpr ⟨hne, hne'⟩)
  · exact heq

/-- Steps that cut no function, and make none known that does not fit. -/
def Config.distinct (p : Program) (c : Config) : Bool :=
  match c.loop, c.todo with
  | some l, _ => l.stop ≤ l.addr || (!c.cutting && match p.sections[c.s.sec]? with
    | some sec => match callee? (sec.inst l.addr).act with
      | some t => c.s.fits ⟨c.s.sec, t, nameAt sec t⟩
      | none => true
    | none => true)
  | none, F :: _ => c.s.blk.layout (c.s.fnOf F.name) = [] && c.s.fits ⟨c.s.sec, F.start, F.name⟩ &&
      (F.name ≠ "main" || c.s.module.get? "main" = none)
  | none, [] => true

theorem distinct_spec (hm : Maps c.s) (h : c.distinct p = true) : Distinct p c := by
  obtain ⟨s, next, todo, loop⟩ := c
  unfold Config.distinct at h
  cases loop with
  | some l =>
    have hcase : l.stop ≤ l.addr ∨ (¬ Cuts s l ∧ ∀ sec t, p.sections[s.sec]? = some sec →
        callee? (sec.inst l.addr).act = some t → Fits s ⟨s.sec, t, nameAt sec t⟩) := by
      refine (Bool.or_eq_true_iff.mp h).imp of_decide_eq_true fun h => ?_
      obtain ⟨hcut, h⟩ := Bool.and_eq_true_iff.mp h
      refine ⟨not_cuts (c := ⟨s, next, todo, some l⟩) ((Bool.not_eq_true' _).mp hcut) rfl,
        fun sec t hsec ht => fits_spec hm ?_⟩
      simpa [hsec, ht] using h
    have hno : ∀ l', some l = some l' → ¬ Cuts s l' := by
      rintro _ ⟨⟩ hcuts
      rcases hcase with hge | ⟨hcut, -⟩
      · exact absurd hcuts.1 (Nat.not_lt.mpr hge)
      · exact hcut hcuts
    refine ⟨fun l' _ hl' hcuts => absurd hcuts (hno l' hl'),
      ⟨fun l' _ _ hl' hcuts => absurd hcuts (hno l' hl'), fun _ _ hl => (by cases hl)⟩,
      fun l' _ _ hl' hcuts => absurd hcuts (hno l' hl'), fun l' sec t hl' hlt _ hsec ht => ?_,
      fun _ hl => (by cases hl)⟩
    obtain rfl := Option.some.inj hl'
    exact (hcase.resolve_left (Nat.not_le.mpr hlt)).2 sec t hsec ht
  | none =>
    have hhead : ∀ F todo', todo = F :: todo' → (s.blk.layout (s.fnOf F.name) = [] ∧
        s.fits ⟨s.sec, F.start, F.name⟩ = true) ∧
        (F.name = "main" → s.module.get? "main" = none) := by
      rintro F todo' rfl
      simpa [imp_iff_not_or] using h
    refine ⟨fun _ _ hl => (by cases hl),
      ⟨fun _ _ _ hl => (by cases hl), fun F todo' _ htodo => (hhead F todo' htodo).1.1⟩,
      fun _ _ _ hl => (by cases hl), fun _ _ _ hl => (by cases hl), fun F _ hF => ?_⟩
    obtain ⟨todo', rfl⟩ := List.head?_eq_some_iff.mp hF
    exact ⟨fits_spec hm (hhead F todo' rfl).1.2, (hhead F todo' rfl).2⟩

/-- One function at the start of a section. -/
def loneSection (name : String) : Section where
  size := 4
  symbols := [{name := name, addr := 0}]
  inst _ := .ret 1

end RiscvSbt.Context
