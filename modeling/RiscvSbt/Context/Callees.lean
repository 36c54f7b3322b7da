import RiscvSbt.Context.Discovery
import RiscvSbt.Context.Lookups

/-! Calls of functions that have code.

A call refers to the LLVM function of the function known at its target, and a function that is
not known yet is made up. It gets its code when the loop comes to its address, which it must
not have passed. -/
namespace RiscvSbt.Context
open Library Block State

/-- The address is in a range that is still to be translated. -/
def Awaits (c : Config) (a : Nat) : Prop :=
  (∃ F ∈ c.todo, F.start ≤ a ∧ a < F.stop) ∨
    ∃ l, c.loop = some l ∧ l.addr ≤ a ∧ a ≠ l.st ∧ a < l.stop

/-- Where every call gets a function with code: that of a function that is known, or of one that
the loop will come to. -/
structure Answers (p : Program) (sec : Section) (c : Config) : Prop where
  orderly : Orderly sec c
  apart : Apart p c
  unfilled : Unfilled c
  /-- A function that is not known is behind the call, and not `main`. -/
  call : ∀ l t, c.loop = some l → l.addr < l.stop → callee? (sec.inst l.addr).act = some t →
    Registered c.s t ∨ (((∃ F ∈ c.todo, F.start ≤ t ∧ t < F.stop) ∨ l.addr < t ∧ t < l.stop) ∧
      nameAt sec t ≠ "main")
  /-- A symbol at an address that was called is the first one there, and has code. -/
  enter : ∀ F f, c.loop = none → c.todo.head? = some F → (F.start, f) ∈ c.s.calls →
    F.name = nameAt sec F.start ∧ F.start < F.stop

/-- The loop has not come to the address yet, nor to another function there. -/
def Beyond (c : Config) (a : Nat) : Prop :=
  match c.loop with
  | some l => l.st < a ∧ (l.addr ≤ a ∨ l.stop < a)
  | none => ∃ F, c.todo.head? = some F ∧ F.start < a

structure Answered (p : Program) (sec : Section) (c : Config) : Prop where
  span : ∀ l, c.loop = some l → c.todo ≠ [] → l.st ≤ l.stop
  /-- What follows is in the ranges to come. -/
  rest : ∀ a, a < sec.size → match c.loop with
    | some l => l.st ≤ a → l.stop ≤ a → ∃ F ∈ c.todo, F.start ≤ a ∧ a < F.stop
    | none => ∀ F, c.todo.head? = some F → F.start ≤ a → ∃ F ∈ c.todo, F.start ≤ a ∧ a < F.stop
  /-- Functions to come were made up by calls. -/
  named : ∀ a o obj, Beyond c a → c.s.funcByAddr.get? a = some o → c.s.objs o = some obj →
    obj.name = nameAt sec a ∧ nameAt sec a ≠ "main" ∧
      ∃ f, obj.f = some f ∧ c.s.module.get? (nameAt sec a) = some f
  calls : ∀ t f, (t, f) ∈ c.s.calls → Bodied p f t c ∨
    (∃ l, c.loop = some l ∧ l.st = t ∧ l.st < l.stop ∧ c.s.blk.func.f = f) ∨
    (Awaits c t ∧ Registered c.s t ∧ nameAt sec t ≠ "main" ∧
      c.s.module.get? (nameAt sec t) = some f)
  /-- A function that is known has code, or gets it. -/
  known : ∀ a o obj, c.s.funcByAddr.get? a = some o → c.s.objs o = some obj → a < sec.size →
    Awaits c a ∨ ∃ f, obj.f = some f ∧
      (Bodied p f a c ∨ ∃ l, c.loop = some l ∧ l.st = a ∧ c.s.blk.func.f = f)

variable {p : Program} {sec : Section} {s t : State} {c c' : Config} {l l' : Loop}
  {todo : List Func} {F : Func} {obj : Obj} {a g : Nat}

/-- The functions of a section lie side by side up to its end. -/
theorem delimit_covers (size : Nat) (syms : List Symbol) (sym : Symbol) (ha : sym.addr ≤ a)
    (hsize : a < size) : ∃ F ∈ delimit size (some sym) syms, F.start ≤ a ∧ a < F.stop := by
  induction syms generalizing sym with
  | nil => exact ⟨_, List.mem_singleton.mpr rfl, ha, hsize⟩
  | cons next syms ih =>
    unfold delimit
    split
    · by_cases hlt : a < next.addr
      · exact ⟨_, List.mem_cons_self, ha, hlt⟩
      · obtain ⟨F, hF, h⟩ := ih next (Nat.not_lt.mp hlt)
        exact ⟨F, List.mem_cons_of_mem _ hF, h⟩
    · exact ih sym ha

theorem delimit_head {size : Nat} {syms : List Symbol} {sym : Symbol}
    (hF : (delimit size (some sym) syms).head? = some F) : F.start = sym.addr := by
  induction syms with
  | nil =>
    obtain rfl := Option.some.inj hF
    rfl
  | cons next syms ih =>
    unfold delimit at hF
    split at hF
    · obtain rfl := Option.some.inj hF
      rfl
    · exact ih hF

theorem funcs_covers (hF : sec.funcs.head? = some F) (ha : F.start ≤ a) (hsize : a < sec.size) :
    ∃ F ∈ sec.funcs, F.start ≤ a ∧ a < F.stop := by
  unfold Section.funcs at hF ⊢
  split at hF
  next htext =>
    rw [if_pos htext]
    generalize sec.symbols = syms at hF ⊢
    induction syms with
    | nil => cases hF
    | cons next syms ih =>
      unfold delimit at hF ⊢
      by_cases hv : next.isValid = true
      · rw [if_pos hv] at hF ⊢
        exact delimit_covers sec.size syms next (delimit_head hF ▸ ha) hsize
      · rw [if_neg hv] at hF ⊢
        exact ih hF
  next => cases hF

/-- The first of functions that follow each other starts first. -/
theorem chain_le {G : Func} (h : (G :: todo).IsChain Follows) (hF : F ∈ G :: todo) :
    G.start ≤ F.start := by
  induction todo generalizing G with
  | nil =>
    obtain rfl := List.mem_singleton.mp hF
    exact le_refl _
  | cons H rest ih =>
    rcases List.mem_cons.mp hF with rfl | hF
    · exact le_refl _
    · obtain ⟨hle, heq⟩ : Follows G H := h.rel_head? rfl
      exact le_trans (heq ▸ hle) (ih h.tail hF)

/-- The LLVM function of a function that is entered. -/
theorem Step.enters_fn (hs : Step p c c') (hl : c.loop = none) (htodo : c.todo = F :: todo)
    (hl' : c'.loop = some l) : c'.s.blk.func.f = c.s.fnOf F.name := by
  cases hs with
  | turn loop =>
    rw [hl] at loop
    cases loop
  | leave loop =>
    rw [hl] at loop
    cases loop
  | cut loop =>
    rw [hl] at loop
    cases loop
  | enter loop named fnOf blk dests next entered =>
    obtain ⟨G, rest, htodo', hname⟩ := named
    obtain ⟨rfl, -⟩ := List.cons.inj (htodo.symm.trans htodo')
    rw [entered.running.func_f, fnOf, hname]
  | idle loop next =>
    rw [next] at hl'
    cases hl'

theorem Step.cut_fn (hs : Step p c c') (hl : c.loop = some l) (hcuts : Cuts c.s l)
    (hl' : c'.loop = some l') : ∃ o next, c.s.funcByAddr.get? l.addr = some o ∧
      c.s.objs o = some next ∧ c'.s.blk.func.f = c.s.fnOf next.name := by
  have hloop : ∀ {l₁}, c.loop = some l₁ → l₁ = l := fun h₁ => Option.some.inj (h₁.symm.trans hl)
  cases hs with
  | turn loop lt stays =>
    obtain rfl := hloop loop
    exact absurd hcuts stays
  | leave loop le next =>
    rw [next] at hl'
    cases hl'
  | cut loop cuts registered known blk dests fnOf next st entered =>
    obtain rfl := hloop loop
    obtain ⟨old, hold, hname⟩ := known
    exact ⟨_, old, registered, hold, by rw [entered.running.func_f, fnOf, hname]⟩
  | enter loop =>
    rw [hl] at loop
    cases loop
  | idle loop =>
    rw [hl] at loop
    cases loop

theorem Step.turn_fn (hf : Fresh p c) (hs : Step p c c') (hl : c.loop = some l)
    (hl' : c'.loop = some {l with addr := l.addr + 4}) :
    c'.s.blk.func.f = c.s.blk.func.f := by
  have hloop : ∀ {l₁}, c.loop = some l₁ → l₁ = l := fun h₁ => Option.some.inj (h₁.symm.trans hl)
  cases hs with
  | turn loop lt stays next keeps =>
    obtain ⟨body, s₀, f, pr, hr⟩ := hf.run _ loop
    rw [hr.func_f, (keeps _ _ _ _ hr).2.func_f]
  | leave loop le next =>
    rw [next] at hl'
    cases hl'
  | @cut l₁ l₂ o obj s loop cuts registered known blk dests fnOf next st entered =>
    obtain rfl := hloop loop
    obtain rfl := Option.some.inj (next.symm.trans hl')
    have haddr : l₁.addr + 4 = l₁.st := entered.addr.trans entered.st.symm
    have hst : l₁.st = l₁.addr := st
    omega
  | enter loop =>
    rw [hl] at loop
    cases loop
  | idle loop =>
    rw [hl] at loop
    cases loop

/-- Where the loop goes on, no other function is known. -/
theorem Inv.unknown (h : Inv c) (hl : c.loop = some l) (hlt : l.addr < l.stop)
    (hno : l.addr ≠ l.st → l.addr ≠ c.s.nextFuncAddr 0) (hne : l.addr ≠ l.st) :
    ¬ Registered c.s l.addr := by
  intro hreg
  have hmem : l.addr ∈ Ahead c.s l := ⟨hreg, le_refl _, hne, hlt⟩
  obtain ⟨⟨-, hge, -⟩, hmin⟩ := (h.inside l hl).finds ⟨_, hmem⟩
  exact hno hne (le_antisymm hge (hmin hmem))

namespace Answered

theorem init (pending : Map Nat PendingReloc) (sections : String → List Constant) :
    Answered p sec (Config.init pending sections) :=
  ⟨fun _ hl => (nomatch hl), fun _ _ _ hF => (nomatch hF), fun _ _ _ _ ho => (nomatch ho),
    fun _ _ h => (nomatch h),
    fun _ _ _ ho => (nomatch ho)⟩

/-- The end of a function. -/
theorem leave (h : Answered p sec c) (hi : Inv c) (hv : Vacated p c) (hl : c.loop = some l)
    (hge : l.stop ≤ l.addr) (ht : c.s.leave p = .ok t)
    (hs : Step p c ⟨t, c.next, c.todo, none⟩) : Answered p sec ⟨t, c.next, c.todo, none⟩ := by
  obtain ⟨hsteady, hobjs, -⟩ := leave_steady ht
  have hrest : ∀ a, a < sec.size → l.st ≤ a → l.stop ≤ a →
      ∃ F ∈ c.todo, F.start ≤ a ∧ a < F.stop := fun a ha => by simpa only [hl] using h.rest a ha
  have hended : l.st < l.addr → Bodied p c.s.blk.func.f l.st ⟨t, c.next, c.todo, none⟩ :=
    fun hlt => hv.ended hs hl (.inr hge) hlt
  have hnext := (hi.inside l hl).next
  refine ⟨fun l hl => (by cases hl), fun a ha F hF hle => ?_, fun a o obj hb ho hobj => ?_,
    fun k f hk => ?_, fun a o obj ho hobj ha => ?_⟩
  · have := (hnext F hF).1
    have := h.span l hl (List.ne_nil_of_mem (List.mem_of_mem_head? hF))
    exact hrest a ha (by omega) (by omega)
  · obtain ⟨F, hF, hlt⟩ := hb
    obtain ⟨old, hold, hn, -, -, hfn⟩ := hobjs o obj hobj
    rw [hsteady.funcByAddr] at ho
    have hbeyond : Beyond c a := by
      unfold Beyond
      rw [hl]
      have := (hnext F hF).1
      have := h.span l hl (List.ne_nil_of_mem (List.mem_of_mem_head? hF))
      exact ⟨by omega, .inr (by omega)⟩
    obtain ⟨hname, hmain, f, hf, hm⟩ := h.named a o old hbeyond ho hold
    exact ⟨hn.trans hname, hmain, f, hfn.trans hf, hsteady.module _ _ hm⟩
  · rw [hsteady.calls] at hk
    rcases h.calls k f hk with hb | ⟨l', hl', rfl, hlt, rfl⟩ | ⟨hw, hreg, hmain, hm⟩
    · exact .inl (hb.step hs)
    · obtain rfl := Option.some.inj (hl.symm.trans hl')
      exact .inl (hended (by omega))
    · refine .inr (.inr ⟨?_, ?_, hmain, hsteady.module _ _ hm⟩)
      · rcases hw with hF | ⟨l', hl', h₁, h₂, h₃⟩
        · exact .inl hF
        · obtain rfl := Option.some.inj (hl.symm.trans hl')
          omega
      · unfold Registered
        rw [hsteady.funcByAddr]
        exact hreg
  · obtain ⟨old, hold, -, -, -, hfn⟩ := hobjs o obj hobj
    rw [hsteady.funcByAddr] at ho
    rcases h.known a o old ho hold ha with (hF | ⟨l', hl', h₁, h₂, h₃⟩) | ⟨f, hf, hor⟩
    · exact .inl (.inl hF)
    · obtain rfl := Option.some.inj (hl.symm.trans hl')
      omega
    · rcases hor with hb | ⟨l', hl', rfl, rfl⟩
      · exact .inr ⟨f, hfn.trans hf, .inl (hb.step hs)⟩
      · obtain rfl := Option.some.inj (hl.symm.trans hl')
        by_cases hlt : l.st < l.addr
        · exact .inr ⟨_, hfn.trans hf, .inl (hended hlt)⟩
        · exact .inl (.inl (hrest l.st ha (le_refl _) (by omega)))

/-- A function starts at `st`. Functions elsewhere are as they were, and the one whose loop has
ended has its code. -/
theorem begins {st stop n : Nat} (h : Answered p sec c)
    (hs : Step p c ⟨t, n, todo, some ⟨st, stop, st⟩⟩)
    (hspan : todo ≠ [] → st ≤ stop)
    (hrest : ∀ a, a < sec.size → st ≤ a → stop ≤ a → ∃ F ∈ todo, F.start ≤ a ∧ a < F.stop)
    (hbeyond : ∀ a, st < a → Beyond c a)
    (hahead : ∀ a, Awaits c a → a = st ∧ st < stop ∨
      Awaits ⟨t, n, todo, some ⟨st, stop, st⟩⟩ a)
    (hended : ∀ l, c.loop = some l →
      Bodied p c.s.blk.func.f l.st ⟨t, n, todo, some ⟨st, stop, st⟩⟩)
    (hcalls : t.calls = c.s.calls)
    (hmodule : ∀ n f, c.s.module.get? n = some f → t.module.get? n = some f)
    (hreg : ∀ a, Registered c.s a → Registered t a)
    (hold : ∀ a o obj, a ≠ st → t.funcByAddr.get? a = some o → t.objs o = some obj →
      c.s.funcByAddr.get? a = some o ∧ ∃ old, c.s.objs o = some old ∧ obj.name = old.name ∧
        obj.f = old.f)
    (hhere : ∀ o obj, t.funcByAddr.get? st = some o → t.objs o = some obj →
      obj.f = some t.blk.func.f)
    (hname : ∀ f, (st, f) ∈ c.s.calls → t.blk.func.f = c.s.fnOf (nameAt sec st)) :
    Answered p sec ⟨t, n, todo, some ⟨st, stop, st⟩⟩ := by
  refine ⟨fun l hl hne => ?_, hrest, fun a o obj hb ho hobj => ?_, fun k f hk => ?_,
    fun a o obj ho hobj ha => ?_⟩
  · obtain rfl := Option.some.inj hl
    exact hspan hne
  · have hlt : st < a := hb.1
    obtain ⟨ho, old, hobj', hn, hf⟩ := hold a o obj (Nat.ne_of_gt hlt) ho hobj
    obtain ⟨hname, hmain, f, hf', hmod⟩ := h.named a o old (hbeyond a hlt) ho hobj'
    exact ⟨hn.trans hname, hmain, f, hf.trans hf', hmodule _ _ hmod⟩
  · have hcall : (k, f) ∈ c.s.calls := hcalls ▸ hk
    rcases h.calls k f hcall with hb | ⟨l, hl, rfl, -, rfl⟩ | ⟨hw, hr, hmain, hmod⟩
    · exact .inl (hb.step hs)
    · exact .inl (hended l hl)
    · rcases hahead k hw with ⟨rfl, hlt⟩ | hw
      · -- The function has the name that the call looked up.
        refine .inr (.inl ⟨_, rfl, rfl, hlt, ?_⟩)
        rw [hname f hcall]
        unfold State.fnOf State.create
        rw [if_neg hmain, hmod]
      · exact .inr (.inr ⟨hw, hreg k hr, hmain, hmodule _ _ hmod⟩)
  · by_cases heq : a = st
    · subst heq
      exact .inr ⟨_, hhere o obj ho hobj, .inr ⟨_, rfl, rfl, rfl⟩⟩
    · obtain ⟨ho, old, hobj', -, hf⟩ := hold a o obj heq ho hobj
      rcases h.known a o old ho hobj' ha with hw | ⟨f, hf', hb | ⟨l, hl, rfl, rfl⟩⟩
      · exact .inl ((hahead a hw).resolve_left fun hst => heq hst.1)
      · exact .inr ⟨f, hf.trans hf', .inl (hb.step hs)⟩
      · exact .inr ⟨_, hf.trans hf', .inl (hended l hl)⟩

/-- A function that a symbol delimits. -/
theorem enter (h : Answered p sec c) (hi : Inv c) (hm : Maps c.s) (hgood : Answers p sec c)
    (hl : c.loop = none) (htodo : c.todo = F :: todo)
    (ht : c.s.translateFunc p F = .ok (t, l)) (hs : Step p c ⟨t, c.next, todo, some l⟩) :
    Answered p sec ⟨t, c.next, todo, some l⟩ := by
  let new : Obj := {name := F.name, sec := c.s.sec, addr := F.start, stop := some F.stop}
  let s₁ := (c.s.newFunction new).addFunc c.s.nextObj new
  have ht : s₁.translate p c.s.sec c.s.nextObj = .ok (t, l) := ht
  obtain ⟨hsteady, hgiven, -⟩ := translate_steady ht
  obtain ⟨obj, hobj, hstop, hst, haddr, -⟩ := translate_ok (hi.keyed.addFunc rfl) ht
  obtain ⟨-, rfl⟩ | ⟨hne, -⟩ := addFunc_objs hobj
  case inr => exact absurd rfl hne
  obtain ⟨st, stop, addr⟩ := l
  obtain rfl : F.start = st := hst.symm
  obtain rfl : F.start = addr := haddr.symm
  obtain rfl : F.stop = stop := Option.some.inj hstop
  have hfn : t.blk.func.f = c.s.fnOf F.name := hs.enters_fn hl htodo rfl
  have hhead : c.todo.head? = some F := by rw [htodo]; rfl
  have hget : ∀ a, t.funcByAddr.get? a = if a = F.start then some c.s.nextObj
      else c.s.funcByAddr.get? a := fun a => by
    rw [hsteady.funcByAddr]
    exact Map.get?_upsert _ _ _ _
  refine h.begins hs (fun hne => ?_) (fun a ha hle hge => ?_) (fun a hlt => ?_) ?_
    (fun l hl' => ?_) hsteady.calls hsteady.module (fun a ⟨o, ho⟩ => ?_)
    (fun a o obj ha ho hobj => ?_) (fun o obj ho hobj => ?_) fun f hk => ?_
  · have hchain := hi.chain
    rw [htodo] at hchain
    obtain ⟨G, rest, htodo'⟩ := List.exists_cons_of_ne_nil hne
    exact (hchain.rel_head? (y := G) (by rw [show todo = G :: rest from htodo']; rfl)).1
  · have hrest := h.rest a ha
    rw [hl] at hrest
    obtain ⟨G, hG, hle', hlt⟩ := hrest F hhead hle
    rw [htodo] at hG
    rcases List.mem_cons.mp hG with rfl | hG
    · exact absurd hlt (Nat.not_lt.mpr hge)
    · exact ⟨G, hG, hle', hlt⟩
  · unfold Beyond
    rw [hl]
    exact ⟨F, hhead, hlt⟩
  · rintro a (⟨G, hG, hle, hlt⟩ | ⟨l', hl', -⟩)
    · rw [htodo] at hG
      rcases List.mem_cons.mp hG with rfl | hG
      · by_cases ha : a = G.start
        · exact .inl ⟨ha, by omega⟩
        · exact .inr (.inr ⟨_, rfl, hle, ha, hlt⟩)
      · exact .inr (.inl ⟨G, hG, hle, hlt⟩)
    · rw [hl] at hl'
      cases hl'
  · rw [hl] at hl'
    cases hl'
  · show ∃ o, t.funcByAddr.get? a = some o
    rw [hget]
    split
    · exact ⟨_, rfl⟩
    · exact ⟨o, ho⟩
  · rw [hget, if_neg ha] at ho
    have hne : o ≠ c.s.nextObj := Nat.ne_of_lt (hm.fresh a o ho)
    obtain ⟨mid, hmid, hn, -, -, hf⟩ := hgiven.objs o obj hobj
    rw [if_neg hne] at hf
    rcases addFunc_objs hmid with ⟨heq, -⟩ | ⟨-, hmid⟩
    · exact absurd heq hne
    · exact ⟨ho, mid, hmid, hn, hf⟩
  · rw [hget, if_pos rfl] at ho
    obtain rfl := Option.some.inj ho
    obtain ⟨mid, hmid, -, -, -, hf⟩ := hgiven.objs _ obj hobj
    obtain ⟨-, rfl⟩ | ⟨hne, -⟩ := addFunc_objs hmid
    case inr => exact absurd rfl hne
    rw [if_pos rfl] at hf
    rw [hf, hfn]
    exact congrArg some (fnOf_congr rfl rfl)
  · rw [hfn, (hgood.enter F f hl hhead hk).1]

/-- A switch to the next function. -/
theorem cut (h : Answered p sec c) (hi : Inv c) (hm : Maps c.s) (hv : Vacated p c)
    (hl : c.loop = some l) (hcuts : Cuts c.s l) (hobj : c.s.objs c.s.cur = some obj)
    (ht : {c.s with addr := l.addr}.switch p obj l = .ok (t, l'))
    (hs : Step p c ⟨t, c.next, c.todo, some l'⟩) : Answered p sec ⟨t, c.next, c.todo, some l'⟩ := by
  obtain ⟨hsteady, nextf, next, hnextf, hnext, hgiven⟩ :=
    switch_steady (s := {c.s with addr := l.addr}) hobj ht
  have hk : Keyed {c.s with addr := l.addr} := ⟨hi.keyed.fresh, hi.keyed.addr, hi.keyed.sec⟩
  obtain ⟨-, -, rfl, -⟩ := switch_ok hk hobj ht
  obtain ⟨o, next', ho, hnext', hfn⟩ := hs.cut_fn hl hcuts rfl
  obtain rfl := Option.some.inj (ho.symm.trans hnextf)
  obtain rfl := Option.some.inj (hnext'.symm.trans hnext)
  obtain ⟨hlt, hne, -⟩ := id hcuts
  have hle := (hi.inside l hl).le
  have hby : t.funcByAddr = c.s.funcByAddr := hsteady.funcByAddr
  have hbeyond : ∀ a, l.addr ≤ a → Beyond c a := fun a ha => by
    unfold Beyond
    rw [hl]
    exact ⟨by omega, .inl ha⟩
  obtain ⟨hname, -⟩ := h.named l.addr o next' (hbeyond _ (le_refl _)) ho hnext'
  refine h.begins hs (fun _ => le_of_lt hlt) (fun a ha hge hle' => ?_)
    (fun a hlt => hbeyond a (le_of_lt hlt)) ?_ (fun l' hl' => ?_) hsteady.calls hsteady.module
    (fun a ⟨x, hx⟩ => ⟨x, hby ▸ hx⟩) (fun a x obj ha hx hobj => ?_) (fun x obj hx hobj => ?_)
    fun f _ => by rw [hfn, hname]
  · have hrest := h.rest a ha
    rw [hl] at hrest
    exact hrest (le_trans hle hge) hle'
  · rintro a (hF | ⟨l', hl', h₁, h₂, h₃⟩)
    · exact .inr (.inl hF)
    · obtain rfl := Option.some.inj (hl.symm.trans hl')
      by_cases ha : a = l.addr
      · exact .inl ⟨ha, hlt⟩
      · exact .inr (.inr ⟨_, rfl, h₁, ha, h₃⟩)
  · obtain rfl := Option.some.inj (hl.symm.trans hl')
    exact hv.ended hs hl (.inl hcuts) (by omega)
  · obtain ⟨old, hold, hn, haddr, -, hf⟩ := hgiven.objs x obj hobj
    rw [hby] at hx
    have hxo : x ≠ o := by
      rintro rfl
      exact ha ((hm.addr a x old hx hold).symm.trans (hm.addr _ x old ho hold))
    rw [if_neg hxo] at hf
    exact ⟨hx, old, hold, hn, hf⟩
  · rw [hby] at hx
    obtain rfl := Option.some.inj (ho.symm.trans hx)
    obtain ⟨old, hold, -, -, -, hf⟩ := hgiven.objs _ obj hobj
    obtain rfl := Option.some.inj (hnext'.symm.trans hold)
    rw [if_pos rfl] at hf
    rw [hf, hfn]
    exact congrArg some (fnOf_congr rfl rfl)

/-- The loop goes on. Functions that were not known before are still to be translated, and a
call that was not emitted before is answered. -/
theorem goOn (h : Answered p sec c) (hi : Inv c) (hl : c.loop = some l) (hlt : l.addr < l.stop)
    (hno : l.addr ≠ l.st → ¬ Registered c.s l.addr)
    (hs : Step p c ⟨t, c.next, c.todo, some {l with addr := l.addr + 4}⟩)
    (hfn : t.blk.func.f = c.s.blk.func.f)
    (hmodule : ∀ n f, c.s.module.get? n = some f → t.module.get? n = some f)
    (hreg : ∀ a, Registered c.s a → Registered t a)
    (hnew : ∀ a o obj, t.funcByAddr.get? a = some o → t.objs o = some obj →
      (c.s.funcByAddr.get? a = some o ∧ c.s.objs o = some obj) ∨
        (Awaits ⟨t, c.next, c.todo, some {l with addr := l.addr + 4}⟩ a ∧ obj.name = nameAt sec a ∧
          nameAt sec a ≠ "main" ∧ ∃ f, obj.f = some f ∧ t.module.get? (nameAt sec a) = some f))
    (hcalls : ∀ k f, (k, f) ∈ t.calls → (k, f) ∈ c.s.calls ∨ (Registered t k ∧
      (Bodied p f k c ∨ (l.st = k ∧ c.s.blk.func.f = f) ∨
        (Awaits ⟨t, c.next, c.todo, some {l with addr := l.addr + 4}⟩ k ∧ nameAt sec k ≠ "main" ∧
          t.module.get? (nameAt sec k) = some f)))) :
    Answered p sec ⟨t, c.next, c.todo, some {l with addr := l.addr + 4}⟩ := by
  have hin := hi.inside l hl
  have hahead : ∀ a, Awaits c a → Registered c.s a →
      Awaits ⟨t, c.next, c.todo, some {l with addr := l.addr + 4}⟩ a := by
    rintro a (hF | ⟨l', hl', h₁, h₂, h₃⟩) ha
    · exact .inl hF
    · obtain rfl := Option.some.inj (hl.symm.trans hl')
      have hne : a ≠ l.addr := fun heq => hno (heq ▸ h₂) (heq ▸ ha)
      have := hi.aligned a ha
      have := hin.aligned
      exact .inr ⟨_, rfl, show l.addr + 4 ≤ a by omega, h₂, h₃⟩
  refine ⟨fun l' hl' hne => ?_, fun a ha hge hle => ?_, fun a o obj hb ho hobj => ?_,
    fun k f hk => ?_, fun a o obj ho hobj ha => ?_⟩
  · obtain rfl := Option.some.inj hl'
    exact h.span l hl hne
  · have hrest := h.rest a ha
    rw [hl] at hrest
    exact hrest hge hle
  · rcases hnew a o obj ho hobj with ⟨ho, hobj⟩ | ⟨-, hname, hmain, f, hf, hm⟩
    · have hbeyond : Beyond c a := by
        obtain ⟨hst, hor⟩ : l.st < a ∧ (l.addr + 4 ≤ a ∨ l.stop < a) := hb
        unfold Beyond
        rw [hl]
        exact ⟨hst, hor.imp_left fun hle => by omega⟩
      obtain ⟨hname, hmain, f, hf, hm⟩ := h.named a o obj hbeyond ho hobj
      exact ⟨hname, hmain, f, hf, hmodule _ _ hm⟩
    · exact ⟨hname, hmain, f, hf, hm⟩
  · rcases hcalls k f hk with hk | ⟨hr, hb | ⟨rfl, rfl⟩ | ⟨hw, hmain, hm⟩⟩
    · rcases h.calls k f hk with hb | ⟨l', hl', rfl, hlt', rfl⟩ | ⟨hw, hr, hmain, hm⟩
      · exact .inl (hb.step hs)
      · obtain rfl := Option.some.inj (hl.symm.trans hl')
        exact .inr (.inl ⟨_, rfl, rfl, hlt', hfn⟩)
      · exact .inr (.inr ⟨hahead k hw hr, hreg k hr, hmain, hmodule _ _ hm⟩)
    · exact .inl (hb.step hs)
    · have := hin.le
      exact .inr (.inl ⟨_, rfl, rfl, show l.st < l.stop by omega, hfn⟩)
    · exact .inr (.inr ⟨hw, hr, hmain, hm⟩)
  · rcases hnew a o obj ho hobj with ⟨ho, hobj⟩ | ⟨hw, -⟩
    · rcases h.known a o obj ho hobj ha with hw | ⟨f, hf, hb | ⟨l', hl', rfl, rfl⟩⟩
      · exact .inl (hahead a hw ⟨o, ho⟩)
      · exact .inr ⟨f, hf, .inl (hb.step hs)⟩
      · obtain rfl := Option.some.inj (hl.symm.trans hl')
        exact .inr ⟨_, hf, .inr ⟨_, rfl, rfl, hfn⟩⟩
    · exact .inl hw

/-- A call of a function that is known. -/
theorem answer (h : Answered p sec c) (hi : Inv c) (hl : c.loop = some l) (hlt : l.addr < l.stop)
    (hno : l.addr ≠ l.st → ¬ Registered c.s l.addr) {k o : Nat} {f : FnId} (hk : k < sec.size)
    (ho : c.s.funcByAddr.get? k = some o) (hobj : c.s.objs o = some obj) (hf : obj.f = some f)
    (ht : t.module = c.s.module) : Bodied p f k c ∨ (l.st = k ∧ c.s.blk.func.f = f) ∨
      (Awaits ⟨t, c.next, c.todo, some {l with addr := l.addr + 4}⟩ k ∧ nameAt sec k ≠ "main" ∧
        t.module.get? (nameAt sec k) = some f) := by
  have hin := hi.inside l hl
  rcases h.known k o obj ho hobj hk with hw | ⟨g, hg, hb | ⟨l', hl', rfl, rfl⟩⟩
  · -- It lies behind the call, and was made up by another one.
    obtain ⟨hst, hle, hawaits⟩ : l.st < k ∧ l.addr ≤ k ∧
        Awaits ⟨t, c.next, c.todo, some {l with addr := l.addr + 4}⟩ k := by
      rcases hw with ⟨F, hF, hle, hlt'⟩ | ⟨l', hl', h₁, h₂, h₃⟩
      · have hstop : l.stop ≤ F.start := by
          obtain ⟨G, rest, htodo⟩ := List.exists_cons_of_ne_nil (List.ne_nil_of_mem hF)
          have hG := (hin.next G (by rw [htodo]; rfl)).1
          rw [htodo] at hF
          have hchain := hi.chain
          rw [htodo] at hchain
          exact hG ▸ chain_le hchain hF
        have := hin.le
        exact ⟨by omega, by omega, .inl ⟨F, hF, hle, hlt'⟩⟩
      · obtain rfl := Option.some.inj (hl.symm.trans hl')
        have hne : k ≠ l.addr := fun heq => hno (heq ▸ h₂) ⟨o, heq ▸ ho⟩
        have := hi.aligned k ⟨o, ho⟩
        have := hin.aligned
        have := hin.le
        exact ⟨by omega, h₁, .inr ⟨_, rfl, show l.addr + 4 ≤ k by omega, h₂, h₃⟩⟩
    have hbeyond : Beyond c k := by
      unfold Beyond
      rw [hl]
      exact ⟨hst, .inl hle⟩
    obtain ⟨-, hmain, g, hg, hm⟩ := h.named k o obj hbeyond ho hobj
    obtain rfl := Option.some.inj (hg.symm.trans hf)
    exact .inr (.inr ⟨hawaits, hmain, ht ▸ hm⟩)
  · obtain rfl := Option.some.inj (hg.symm.trans hf)
    exact .inl hb
  · obtain rfl := Option.some.inj (hl.symm.trans hl')
    exact .inr (.inl ⟨rfl, Option.some.inj (hg.symm.trans hf)⟩)

theorem turn (hp : p.sections = [sec])
    (hin : ∀ a k, callee? (sec.inst a).act = some k → k < sec.size) (h : Answered p sec c)
    (hi : Inv c) (hf : Fresh p c) (hv : Vacated p c) (hgood : Answers p sec c)
    (hl : c.loop = some l) (hlt : l.addr < l.stop) (ht : c.s.turn p l = .ok (t, l'))
    (hs : Step p c ⟨t, c.next, c.todo, some l'⟩) : Answered p sec ⟨t, c.next, c.todo, some l'⟩ := by
  obtain ⟨obj, hobj, ⟨hne, hat, hsw⟩ | ⟨hstay, rfl, sec', hsec', hinstr⟩⟩ := turn_ok ht
  · exact h.cut hi hf.maps hv hl ⟨hlt, hne, obj, hobj, hat⟩ hobj hsw hs
  have hsec : obj.sec = 0 := (hi.keyed.sec _ obj hobj).trans hi.sec
  rw [hsec] at hstay
  obtain ⟨-, rfl⟩ := sole hp hsec'
  have hno := hi.unknown hl hlt hstay
  have hfn := hs.turn_fn hf hl rfl
  obtain ⟨u, blk, rfl, -, ⟨-, rfl⟩ | ⟨target, cur, hcallee, hcur, hcall⟩⟩ :=
    translateInstr_ok hinstr
  · exact h.goOn hi hl hlt hno hs hfn (fun _ _ h => h) (fun _ h => h)
      (fun _ _ _ ho hobj => .inl ⟨ho, hobj⟩) fun _ _ hk => .inl hk
  obtain ⟨-, rfl⟩ := sole hp hcur
  obtain ⟨o, v, f, hv', ⟨callee, hcallee', hf'⟩, rfl⟩ := handleCall_ok hcall
  have htarget := hin _ _ hcallee
  obtain ⟨hmod, -⟩ := hgood.orderly.call l hl hlt target hcallee
  cases hget : c.s.funcByAddr.get? target with
  | some o' =>
    obtain ⟨rfl, rfl⟩ := getByAddr_known hv' hget
    refine h.goOn hi hl hlt hno hs hfn (fun _ _ h => h) (fun _ h => h)
      (fun _ _ _ ho hobj => .inl ⟨ho, hobj⟩) fun k g hk => ?_
    rcases List.mem_append.mp hk with hk | hk
    · exact .inl hk
    · obtain ⟨rfl, rfl⟩ := Prod.mk.inj (List.mem_singleton.mp hk)
      exact .inr ⟨⟨o', hget⟩, h.answer hi hl hlt hno htarget hget hcallee' hf' rfl⟩
  | none =>
    obtain ⟨rfl, hby, -, hcalls, hmodule, -⟩ := getByAddr_new hv' hget
    have hbehind := (hgood.call l target hl hlt hcallee).resolve_left fun ⟨o, ho⟩ => by
      rw [hget] at ho
      cases ho
    let s₁ : State := {c.s with addr := l.addr}
    let c' : Config := ⟨{v with
      calls := v.calls ++ [(target, f)], blk := blk,
      words := v.words ++ [⟨obj.sec, l.addr, blk.bld.first⟩]}, c.next, c.todo,
      some {l with addr := l.addr + 4}⟩
    have hawaits : Awaits c' target := by
      have := (hi.inside l hl).aligned
      have := (hi.inside l hl).le
      rcases hbehind.1 with hF | ⟨hgt, hlt'⟩
      · exact .inl hF
      · exact .inr ⟨_, rfl, show l.addr + 4 ≤ target by omega, show target ≠ l.st by omega, hlt'⟩
    have hnew : callee = s₁.madeUp sec target := by
      rcases getByAddr_objs hv' hget hcallee' with ⟨-, heq⟩ | ⟨hne, -⟩
      · exact heq
      · exact absurd rfl hne
    have hm : v.module.get? (nameAt sec target) = some f := by
      rw [hmodule, create_get?, ← hf', hnew]
      rfl
    have hmodule' : ∀ n g, c.s.module.get? n = some g → v.module.get? n = some g := fun n g hn => by
      rw [hmodule]
      exact create_module (s := s₁) hn
    have hget' : ∀ a, v.funcByAddr.get? a = if a = target then some c.s.nextObj
        else c.s.funcByAddr.get? a := fun a => by
      rw [hby]
      exact Map.get?_upsert _ _ _ _
    refine h.goOn hi hl hlt hno hs hfn hmodule' (fun a ⟨o, ho⟩ => ?_) (fun a o obj ho hobj => ?_)
      fun k g hk => ?_
    · show ∃ o, v.funcByAddr.get? a = some o
      rw [hget']
      split
      · exact ⟨_, rfl⟩
      · exact ⟨o, ho⟩
    · have ho' : v.funcByAddr.get? a = some o := ho
      rw [hget'] at ho'
      split at ho'
      next heq =>
        subst heq
        obtain rfl := Option.some.inj ho'
        obtain rfl := Option.some.inj (hcallee'.symm.trans hobj)
        exact .inr ⟨hawaits, congrArg Obj.name hnew, hbehind.2, f, hf', hm⟩
      next hne =>
        rcases getByAddr_objs hv' hget hobj with ⟨heq, -⟩ | ⟨-, hold⟩
        · exact absurd heq (Nat.ne_of_lt (hf.maps.fresh a o ho'))
        · exact .inl ⟨ho', hold⟩
    · have hk : (k, g) ∈ v.calls ++ [(target, f)] := hk
      rw [hcalls] at hk
      rcases List.mem_append.mp hk with hk | hk
      · exact .inl hk
      · obtain ⟨rfl, rfl⟩ := Prod.mk.inj (List.mem_singleton.mp hk)
        refine .inr ⟨?_, .inr (.inr ⟨hawaits, hbehind.2, hm⟩)⟩
        show ∃ o, v.funcByAddr.get? k = some o
        rw [hget', if_pos rfl]
        exact ⟨_, rfl⟩

/-- The next section, or the end. -/
theorem idle (h : Answered p sec c) (hp : p.sections = [sec]) (hi : Inv c) (hl : c.loop = none)
    (htodo : c.todo = []) (hs : c.step p = .ok c') (hstep : Step p c c') : Answered p sec c' := by
  obtain rfl | ⟨sec', hsec, rfl⟩ := step_idle hl htodo hs
  · exact h
  obtain ⟨hnext, rfl⟩ := sole hp hsec
  obtain ⟨-, -, -, hnone⟩ := hi.unopened hnext
  refine ⟨fun l hl => (by cases hl), fun a ha F hF hle => funcs_covers hF hle ha,
    fun a o _ _ ho => absurd ⟨o, ho⟩ (hnone a), fun k f hk => ?_,
    fun a o _ ho => absurd ⟨o, ho⟩ (hnone a)⟩
  rcases h.calls k f hk with hb | ⟨l', hl', -⟩ | ⟨-, hreg, -⟩
  · exact .inl (hb.step hstep)
  · rw [hl] at hl'
    cases hl'
  · exact absurd hreg (hnone k)

/-- **A step that answers its calls.** -/
theorem step (hp : p.sections = [sec])
    (hin : ∀ a k, callee? (sec.inst a).act = some k → k < sec.size) (h : Answered p sec c)
    (hi : Inv c) (hf : Fresh p c) (hv : Vacated p c) (hgood : Answers p sec c)
    (hs : c.step p = .ok c') (hstep : Step p c c') : Answered p sec c' := by
  cases hl : c.loop with
  | some l =>
    obtain ⟨hlt, t, l', ht, rfl⟩ | ⟨hge, t, ht, rfl⟩ := step_loops hl hs
    · exact h.turn hp hin hi hf hv hgood hl hlt ht hstep
    · exact h.leave hi hv hl hge ht hstep
  | none =>
    cases htodo : c.todo with
    | cons F todo =>
      obtain ⟨t, l, ht, rfl⟩ := step_enters hl htodo hs
      exact h.enter hi hf.maps hgood hl htodo ht hstep
    | nil => exact h.idle hp hi hl htodo hs hstep

end Answered

/-- **What every state of a run keeps that answers its calls.** -/
theorem Config.Reach.answered {pending : Map Nat PendingReloc} {sections : String → List Constant}
    (hp : p.sections = [sec]) (haligned : p.Aligned)
    (hsorted : sec.symbols.Pairwise fun x y => x.addr ≤ y.addr)
    (hin : ∀ a k, callee? (sec.inst a).act = some k → k < sec.size)
    (h : Config.Reach p (Answers p sec) pending sections c) : Answered p sec c := by
  refine (h.vacated (I := fun c => Inv c ∧ Answered p sec c) haligned
    (fun _ hg => ⟨hg.apart, hg.unfilled⟩) ⟨.init pending sections, .init pending sections⟩
    fun c c' hf hv hg hs hstep ⟨hi, ha⟩ => ?_).2.2
  exact ⟨hi.step hp hsorted hg.orderly hs, ha.step hp hin hi hf hv hg hs hstep⟩

/-- **Callees have code.** In a translation of one section whose steps all answer their calls,
every function that an emitted call refers to begins, when all is translated, with the
instruction at the target of the call. -/
theorem callees_translated (p : Program) (sec : Section) (pending : Map Nat PendingReloc)
    (sections : String → List Constant) (hp : p.sections = [sec]) (haligned : p.Aligned)
    (hsorted : sec.symbols.Pairwise fun x y => x.addr ≤ y.addr)
    (hin : ∀ a k, callee? (sec.inst a).act = some k → k < sec.size) (c : Config)
    (h : Config.Reach p (Answers p sec) pending sections c) (hl : c.loop = none)
    (htodo : c.todo = []) : ∀ k f, (k, f) ∈ c.s.calls → Body c.s.blk f k := by
  have ha := h.answered hp haligned hsorted hin
  intro k f hk
  rcases ha.calls k f hk with hb | ⟨l', hl', -⟩ | ⟨hw, -⟩
  · exact hb.idle hl
  · rw [hl] at hl'
    cases hl'
  · rcases hw with ⟨F, hF, -⟩ | ⟨l', hl', -⟩
    · rw [htodo] at hF
      cases hF
    · rw [hl] at hl'
      cases hl'

/-- Steps that cut no function and whose calls go ahead, to functions with a symbol. -/
def Config.answers (sec : Section) (c : Config) : Bool :=
  match c.loop, c.todo with
  | some l, todo =>
    l.stop ≤ l.addr || (!c.cutting && match callee? (sec.inst l.addr).act with
    | none => true
    | some t => t % 4 = 0 && l.addr < t && todo.any (fun F => F.start ≤ t && t < F.stop) &&
        nameAt sec t ≠ "main")
  | none, F :: _ =>
    F.start % 4 = 0 && c.s.funcByAddr.data.all (fun i => i.1 ≤ F.start || F.stop ≤ i.1) &&
      c.s.blk.layout (c.s.fnOf F.name) = [] && F.name = nameAt sec F.start && F.start < F.stop
  | none, [] => true

theorem answers_spec (h : c.answers sec = true) : Answers p sec c := by
  obtain ⟨s, next, todo, loop⟩ := c
  unfold Config.answers at h
  cases loop with
  | some l =>
    have hno : ∀ l', some l = some l' → ¬ Cuts s l' := by
      rintro _ ⟨⟩ hcuts
      obtain ⟨hcut, -⟩ := Bool.and_eq_true_iff.mp
        ((Bool.or_eq_true_iff.mp h).resolve_left fun hge =>
        absurd hcuts.1 (Nat.not_lt.mpr (of_decide_eq_true hge)))
      exact not_cuts (c := ⟨s, next, todo, some l⟩) ((Bool.not_eq_true' _).mp hcut) rfl hcuts
    have hcall : l.addr < l.stop → ∀ t, callee? (sec.inst l.addr).act = some t →
        ((t % 4 = 0 ∧ l.addr < t) ∧ ∃ F ∈ todo, F.start ≤ t ∧ t < F.stop) ∧
          nameAt sec t ≠ "main" := by
      intro hlt t ht
      obtain ⟨-, h⟩ := Bool.and_eq_true_iff.mp ((Bool.or_eq_true_iff.mp h).resolve_left fun hge =>
        absurd hlt (Nat.not_lt.mpr (of_decide_eq_true hge)))
      simpa [ht] using h
    refine ⟨⟨fun _ _ hl => (by cases hl), fun l' hl' hlt t ht => ?_⟩,
      fun l' _ hl' hcuts => absurd hcuts (hno l' hl'),
      ⟨fun l' _ _ hl' hcuts => absurd hcuts (hno l' hl'), fun _ _ hl => (by cases hl)⟩,
      fun l' t hl' hlt ht => ?_, fun _ _ hl => (by cases hl)⟩
    · obtain rfl := Option.some.inj hl'
      obtain ⟨⟨⟨hmod, hgt⟩, -⟩, -⟩ := hcall hlt t ht
      exact ⟨hmod, fun heq => absurd heq (Nat.ne_of_gt hgt)⟩
    · obtain rfl := Option.some.inj hl'
      obtain ⟨⟨-, hF⟩, hmain⟩ := hcall hlt t ht
      exact .inr ⟨.inl hF, hmain⟩
  | none =>
    have hhead : ∀ F todo', todo = F :: todo' → (((F.start % 4 = 0 ∧
        ∀ g o, (g, o) ∈ s.funcByAddr.data → g ≤ F.start ∨ F.stop ≤ g) ∧
        s.blk.layout (s.fnOf F.name) = []) ∧ F.name = nameAt sec F.start) ∧ F.start < F.stop := by
      rintro F todo' rfl
      simpa using h
    refine ⟨⟨fun F hF _ => ?_, fun _ hl => (by cases hl)⟩, fun _ _ hl => (by cases hl),
      ⟨fun _ _ _ hl => (by cases hl), fun F todo' _ htodo => (hhead F todo' htodo).1.1.2⟩,
      fun _ _ hl => (by cases hl),
      fun F f _ hF _ => ?_⟩
    · obtain ⟨todo', rfl⟩ := List.head?_eq_some_iff.mp hF
      obtain ⟨⟨⟨⟨hmod, hnone⟩, -⟩, -⟩, -⟩ := hhead F todo' rfl
      refine ⟨hmod, fun _ g ⟨o, ho⟩ hlt => ?_⟩
      exact (hnone g o (Map.get?_eq_some.mp ho)).resolve_left (by omega)
    · obtain ⟨todo', rfl⟩ := List.head?_eq_some_iff.mp hF
      obtain ⟨⟨-, hname⟩, hlt⟩ := hhead F todo' rfl
      exact ⟨hname, hlt⟩

/-- A function calls the next one. -/
def nextSection : Section where
  size := 12
  symbols := [{name := "a", addr := 0}, {name := "b", addr := 8}]
  inst
    | 0 => .call 1 8
    | _ => .ret 1

theorem next_translated : ∃ c : Config, c.loop = none ∧ c.todo = [] ∧ c.s.calls = [(8, 1)] ∧
    Body c.s.blk 1 8 := by
  obtain ⟨c, hc, hP⟩ := checks_spec (P := fun c => c.loop = none ∧ c.todo = [] ∧
    c.s.calls = [(8, 1)])
    (show (Config.init Map.empty fun _ => []).checks {sections := [nextSection]} 8 _ = true by
      decide +kernel)
  obtain ⟨hl, htodo, hcalls⟩ := of_decide_eq_true hP
  have hgood : ∀ m, m < 8 → (Config.init Map.empty fun _ => []).checks {sections := [nextSection]} m
      (Config.answers nextSection) = true := by decide +kernel
  have hreach : Config.Reach {sections := [nextSection]}
      (Answers {sections := [nextSection]} nextSection)
      Map.empty (fun _ => []) c := Run.start.iterate 8 (fun m hm d hd => by
    obtain ⟨d', hd', ha⟩ := checks_spec (hgood m hm)
    obtain rfl := Except.ok.inj (hd.symm.trans hd')
    exact answers_spec ha) hc
  refine ⟨c, hl, htodo, hcalls, callees_translated {sections := [nextSection]} nextSection Map.empty
    (fun _ => []) rfl ?_ (by decide) (fun a k hk => ?_) c hreach hl htodo 8 1
      (by rw [hcalls]; simp)⟩
  · intro sec hsec sym hsym _
    obtain rfl := List.mem_singleton.mp hsec
    have hall : ∀ sym ∈ nextSection.symbols, sym.addr % 4 = 0 := by decide
    exact hall sym hsym
  · unfold nextSection at hk ⊢
    dsimp only at hk
    split at hk
    · obtain rfl := Option.some.inj hk
      decide
    · cases hk

/-- A function calls the middle of itself, behind the call. -/
def backSection : Section where
  size := 12
  symbols := [{name := "a", addr := 0}]
  inst
    | 8 => .call 1 4
    | _ => .straight 1

/-- The loop has passed the address, and the function made up for it stays empty. -/
theorem back_dangles : ∃ c : Config,
    Config.Reach {sections := [backSection]} (fun _ => True) Map.empty (fun _ => []) c ∧
      c.loop = none ∧ c.todo = [] ∧ (4, 1) ∈ c.s.calls ∧ ¬ Body c.s.blk 1 4 := by
  obtain ⟨c, hc, hP⟩ := checks_spec (P := fun c => c.loop = none ∧ c.todo = [] ∧
      c.s.calls = [(4, 1)] ∧ c.s.blk.layout 1 = [])
    (show (Config.init Map.empty fun _ => []).checks {sections := [backSection]} 6 _ = true by
      decide +kernel)
  obtain ⟨hl, htodo, hcalls, hlay⟩ := of_decide_eq_true hP
  refine ⟨c, Run.start.iterate 6 (fun _ _ _ _ => trivial) hc, hl, htodo, by rw [hcalls]; simp, ?_⟩
  rintro ⟨b, rest, hb, -⟩
  rw [hlay] at hb
  cases hb

end RiscvSbt.Context
